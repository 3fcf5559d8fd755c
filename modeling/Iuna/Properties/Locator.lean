import Iuna.App.Locator
import Iuna.Properties.Launch

/-!
# Block locators

The hashes of a locator are dense at the tip and then twice as far apart each time, down to the
first block.  So a locator is short, and the highest block of it that the peer has is not far below
the fork: the answer of the peer starts at or below the first block that the requester lacks.
-/

namespace Iuna

namespace Ledger

/-! ## The length of a locator -/

/-- With doubling steps. -/
lemma locatorIndices_length_doubling {fuel index step pushed turns : ℕ} (dense : 10 < pushed)
    (reach : index ≤ step * (2 ^ turns - 1)) (narrow : step * 2 ^ turns ≤ u64Max) :
    (locatorIndices fuel index step pushed).length ≤ turns + 1 := by
  induction fuel generalizing index step pushed turns with
  | zero => exact Nat.zero_le _
  | succ fuel ih =>
    rw [locatorIndices]
    split
    · exact Nat.le_add_left _ _
    · rename_i hindex
      cases turns with
      | zero =>
        rw [pow_zero, Nat.sub_self, Nat.mul_zero] at reach
        omega
      | succ turns =>
        have hpow : 2 ^ (turns + 1) = 2 * 2 ^ turns := by ring
        have hpositive : 0 < 2 ^ turns := Nat.two_pow_pos turns
        have hdouble : step * 2 ^ (turns + 1) = step * 2 * 2 ^ turns := by ring
        have hstep : step * 2 ≤ u64Max := by
          refine (Nat.le_mul_of_pos_right _ hpositive).trans ?_
          rwa [← hdouble]
        have hnext : Vdf.saturatingMul step 2 = step * 2 := min_eq_left hstep
        have hreach : index - step ≤ step * 2 * (2 ^ turns - 1) := by
          have hsplit : step * (2 ^ (turns + 1) - 1) = step * 2 * (2 ^ turns - 1) + step := by
            obtain ⟨rest, hrest⟩ := Nat.exists_eq_succ_of_ne_zero hpositive.ne'
            rw [hpow, hrest, Nat.succ_eq_add_one, Nat.add_sub_cancel,
              show 2 * (rest + 1) - 1 = 2 * rest + 1 by omega]
            ring
          omega
        rw [if_pos (by omega), hnext, List.length_cons]
        have := @ih (index - step) (step * 2) (pushed + 1) turns (by omega) hreach
          (hdouble ▸ narrow)
        omega

/-- With the first steps, which are dense. -/
lemma locatorIndices_length_dense {fuel index left : ℕ} (few : left ≤ 10) (short : index < 2 ^ 53) :
    (locatorIndices fuel index 1 (10 - left)).length ≤ left + 54 := by
  induction left generalizing fuel index with
  | zero =>
    cases fuel with
    | zero => exact Nat.zero_le _
    | succ fuel =>
      rw [locatorIndices]
      split
      · simp
      · have hlast : (locatorIndices fuel (index - 1) 2 11).length ≤ 52 + 1 :=
          locatorIndices_length_doubling (by omega) (by omega) (by decide)
        have hnext : (if 10 - 0 + 1 > 10 then Vdf.saturatingMul 1 2 else 1) = 2 := by decide
        rw [hnext, List.length_cons]
        exact Nat.succ_le_succ hlast
  | succ left ih =>
    cases fuel with
    | zero => exact Nat.zero_le _
    | succ fuel =>
      rw [locatorIndices]
      split
      · simp
      · have hpushed : 10 - (left + 1) + 1 = 10 - left := by omega
        rw [if_neg (by omega), List.length_cons, hpushed]
        have := @ih fuel (index - 1) (by omega) (by omega)
        omega

lemma blockLocator_length {ledger : Ledger} (short : ledger.chain.length ≤ 2 ^ 53) :
    ledger.blockLocator.length ≤ maxBlockLocatorHashes := by
  have hpositive := List.length_pos_of_ne_nil ledger.chainNonempty
  refine (List.length_filterMap_le _ _).trans ?_
  exact @locatorIndices_length_dense _ _ 10 le_rfl (by omega)

/-- **Requests.** A peer accepts every request of a node that catches up or looks for a fork, for
chains of up to two to the 53 blocks. -/
theorem catchup_requests_accepted {ledger : Ledger} (short : ledger.chain.length ≤ 2 ^ 53) :
    (∀ peerStatus request, ledger.maybeRequestCatchup peerStatus = some request →
        validateEnvelopeLimits request = .ok ()) ∧
      validateEnvelopeLimits ledger.requestForkBlocks = .ok () := by
  have hlocator := blockLocator_length short
  have hlimit : ∀ capabilities, negotiatedBlockBatchLimit capabilities ≤ maxBlockBatch := by
    intro capabilities
    unfold negotiatedBlockBatchLimit
    split <;> decide
  have hlen : ∀ {label : String} {length max : ℕ}, length ≤ max →
      ensureLen label length max = .ok () := by
    intro label length max hle
    exact Outcome.bailIf_eq_ok.mpr (not_lt.mpr hle)
  constructor
  · intro peerStatus request hrequest
    unfold maybeRequestCatchup at hrequest
    dsimp only at hrequest
    split_ifs at hrequest <;> obtain rfl := Option.some.inj hrequest
    · rfl
    · exact hlen (hlimit _)
    · rw [validateEnvelopeLimits, hlen hlocator]
      exact hlen (hlimit _)
  · have hlegacy : legacyMaxBlockBatch ≤ maxBlockBatch := by decide
    rw [requestForkBlocks, validateEnvelopeLimits, hlen hlocator]
    change ensureLen "block locator request" legacyMaxBlockBatch maxBlockBatch = _
    exact hlen hlegacy

/-! ## The fork -/

/-- How far the steps have come with an offset from the tip. -/
def Stepped (offset step pushed : ℕ) : Prop :=
  (pushed ≤ 10 ∧ offset = pushed ∧ step = 1) ∨ (10 < pushed ∧ 1 ≤ step ∧ step + 9 ≤ offset)

lemma Stepped.next {offset step pushed : ℕ} (h : Stepped offset step pushed) :
    Stepped (offset + step)
      (if pushed + 1 > 10 then Vdf.saturatingMul step 2 else step) (pushed + 1) := by
  have hmul : Vdf.saturatingMul step 2 ≤ step * 2 := min_le_left _ _
  have hpositive : 1 ≤ step → 1 ≤ Vdf.saturatingMul step 2 := fun hstep =>
    le_min (by omega) (by decide)
  rcases h with ⟨hpushed, rfl, rfl⟩ | ⟨hpushed, hstep, hfar⟩
  · split
    · have := hpositive le_rfl
      exact .inr ⟨by omega, this, by omega⟩
    · exact .inl ⟨by omega, rfl, rfl⟩
  · rw [if_pos (by omega)]
    exact .inr ⟨by omega, hpositive hstep, by omega⟩

/-- The first index of a locator below a fork is near the fork: at most as many blocks below it as
the requester has above it, less the dense ones. -/
lemma locatorIndices_fork {fork tip : ℕ} (positive : 0 < fork) {fuel index step pushed : ℕ}
    (enough : index < fuel) (below : index ≤ tip) (stepped : Stepped (tip - index) step pushed)
    (near : fork - 1 - index ≤ tip + 1 - fork - 11) :
    ∃ before common after, locatorIndices fuel index step pushed = before ++ common :: after ∧
      (∀ other ∈ before, fork ≤ other ∧ other ≤ tip) ∧ common < fork ∧ common ≤ tip ∧
      fork - 1 - common ≤ tip + 1 - fork - 11 := by
  induction fuel generalizing index step pushed with
  | zero => omega
  | succ fuel ih =>
    rw [locatorIndices]
    by_cases hcommon : index < fork
    · by_cases hzero : index = 0
      · exact ⟨[], index, [], if_pos hzero, by simp, hcommon, below, near⟩
      · exact ⟨[], index, _, if_neg hzero, by simp, hcommon, below, near⟩
    · have hstep : 1 ≤ step ∧ (step = 1 ∨ step + 9 ≤ tip - index) := by
        rcases stepped with ⟨-, -, hone⟩ | ⟨-, hstep, hfar⟩
        · exact ⟨hone.ge, .inl hone⟩
        · exact ⟨hstep, .inr hfar⟩
      rw [if_neg (by omega)]
      by_cases hclamped : step ≤ index
      · have hnext := stepped.next
        rw [show tip - index + step = tip - (index - step) by omega] at hnext
        obtain ⟨before, common, after, hindices, hbefore, hrest⟩ :=
          ih (by omega) (by omega) hnext (by omega)
        refine ⟨index :: before, common, after, ?_, ?_, hrest⟩
        · dsimp only
          rw [hindices]
          rfl
        · rw [List.forall_mem_cons]
          exact ⟨⟨by omega, below⟩, hbefore⟩
      · -- the last step goes to the first block
        have hzero : index - step = 0 := by omega
        cases fuel with
        | zero => omega
        | succ fuel =>
          refine ⟨[index], 0, [], ?_, ?_, positive, Nat.zero_le _, by omega⟩
          · dsimp only
            rw [hzero, locatorIndices, if_pos rfl]
            rfl
          · intro other hother
            obtain rfl := List.mem_singleton.mp hother
            exact ⟨by omega, below⟩

lemma blocksFrom_eq {ledger : Ledger} (complete : ledger.historyPruned = false)
    (heights : ∀ (index : ℕ) (block : Block), ledger.chain[index]? = some block →
      block.height = index) (fromHeight limit : ℕ) :
    ledger.blocksFrom fromHeight limit = (ledger.chain.drop fromHeight).take limit := by
  have hfilter : (ledger.chain.filter fun block => fromHeight ≤ block.height)
      = ledger.chain.drop fromHeight := by
    have hbelow : (ledger.chain.take fromHeight).filter (fun block => fromHeight ≤ block.height)
        = [] := by
      rw [List.filter_eq_nil_iff]
      intro block hblock
      obtain ⟨index, hindex⟩ := List.mem_iff_getElem?.mp hblock
      rw [List.getElem?_take] at hindex
      split at hindex
      · rw [heights index block hindex, decide_eq_true_eq]
        omega
      · cases hindex
    have habove : (ledger.chain.drop fromHeight).filter (fun block => fromHeight ≤ block.height)
        = ledger.chain.drop fromHeight := by
      rw [List.filter_eq_self]
      intro block hblock
      obtain ⟨index, hindex⟩ := List.mem_iff_getElem?.mp hblock
      rw [List.getElem?_drop] at hindex
      rw [heights _ block hindex, decide_eq_true_eq]
      exact Nat.le_add_right _ _
    conv_lhs => rw [← List.take_append_drop fromHeight ledger.chain]
    rw [List.filter_append, hbelow, habove, List.nil_append]
  rw [blocksFrom, firstContiguousResidentHeight, complete, hfilter]
  by_cases hlimit : limit = 0
  · rw [if_pos (.inl hlimit), hlimit, List.take_zero]
  · rw [if_neg (by simp [hlimit])]

/-- Two chains up to a fork: the requester shares its blocks below the fork, and none of the blocks
above it. -/
structure ForksAt (requester responder : Ledger) (fork : ℕ) : Prop where
  positive : 0 < fork
  within : fork ≤ requester.chain.length
  shared : ∀ index < fork, ∀ block, requester.chain[index]? = some block →
    ∃ known, responder.chain[block.height]? = some known ∧ known.hash = block.hash
  apart : ∀ index, fork ≤ index → ∀ block, requester.chain[index]? = some block →
    ∀ known ∈ responder.chain, known.hash ≠ block.hash

/-- **Locators.** A peer with a complete chain answers the locator of a node with its blocks from
above a block that both have.  Of the blocks that the node has in common with the peer, the answer
repeats at most as many as the node has above the fork, less eleven. -/
theorem locator_finds_fork {requester responder : Ledger} {fork : ℕ}
    (forks : ForksAt requester responder fork) (complete : responder.historyPruned = false)
    (heights : ∀ (index : ℕ) (block : Block), responder.chain[index]? = some block →
      block.height = index)
    (distinct : (responder.chain.map Block.hash).Nodup)
    (fits : responder.chain.length ≤ u64Max) (limit : ℕ) :
    ∃ common block, common < fork ∧ requester.chain[common]? = some block ∧
      fork - 1 - common ≤ requester.chain.length - fork - 11 ∧
      responder.blocksAfterLocator requester.blockLocator limit
        = (responder.chain.drop (block.height + 1)).take limit := by
  have hlength := List.length_pos_of_ne_nil requester.chainNonempty
  obtain ⟨before, common, after, hindices, hbefore, hcommon, htip, hnear⟩ :=
    @locatorIndices_fork fork (requester.chain.length - 1) forks.positive
      requester.chain.length (requester.chain.length - 1) 1 0 (by omega) le_rfl
      (.inl ⟨Nat.zero_le 10, Nat.sub_self _, rfl⟩) (by have := forks.within; omega)
  have hblock : requester.chain[common]? = some (requester.chain[common]) :=
    List.getElem?_eq_getElem (by omega)
  generalize requester.chain[common] = block at hblock
  obtain ⟨known, hknown, hhash⟩ := forks.shared common hcommon block hblock
  have hfork := forks.within
  refine ⟨common, block, hcommon, hblock, by omega, ?_⟩
  have hmissing : (before.filterMap fun index => requester.chain[index]?.map Block.hash).findSome?
      (fun hash => (responder.chain.find? fun block => block.hash = hash).map Block.height)
      = none := by
    rw [List.findSome?_eq_none_iff]
    intro hash hmem
    obtain ⟨index, hindex, hfound⟩ := List.mem_filterMap.mp hmem
    obtain ⟨other, hother, rfl⟩ := Option.map_eq_some_iff.mp hfound
    rw [Option.map_eq_none_iff, List.find?_eq_none]
    intro known hknown
    simpa using forks.apart index (hbefore index hindex).1 other hother known hknown
  have hfirst : (responder.chain.find? fun known => known.hash = block.hash) = some known := by
    obtain ⟨hlt, hget⟩ := List.getElem?_eq_some_iff.mp hknown
    rw [List.find?_eq_some_iff_getElem]
    refine ⟨by simpa using hhash, block.height, hlt, hget, fun index hindex => ?_⟩
    simp only [Bool.not_eq_true', decide_eq_false_iff_not]
    intro hsame
    rw [← hhash, ← hget] at hsame
    have hmap := (List.nodup_iff_getElem?_ne_getElem?.mp distinct) index block.height hindex
      (by rwa [List.length_map])
    refine hmap ?_
    rw [List.getElem?_map, List.getElem?_map, List.getElem?_eq_getElem hlt,
      List.getElem?_eq_getElem (hindex.trans hlt), Option.map_some, Option.map_some, hsame]
  have hheight : known.height = block.height := heights _ known hknown
  have hbound : block.height < responder.chain.length :=
    (List.getElem?_eq_some_iff.mp hknown).1
  have hlocator : requester.blockLocator
      = (before.filterMap fun index => requester.chain[index]?.map Block.hash)
        ++ block.hash :: after.filterMap fun index => requester.chain[index]?.map Block.hash := by
    rw [blockLocator, hindices, List.filterMap_append, List.filterMap_cons, hblock]
    rfl
  rw [blocksAfterLocator, hlocator, List.findSome?_append, hmissing, Option.none_or,
    List.findSome?_cons, hfirst, Option.map_some]
  dsimp only
  rw [hheight, saturatingAdd, min_eq_left (by omega), blocksFrom_eq complete heights]

end Ledger

end Iuna

namespace Iuna.Toy

/-- The genesis block with another height and hash. -/
def blockOf (height : ℕ) (hash : Str) : Block := { genesis.tip with height := height, hash := hash }

/-- A chain of a genesis block and one more. -/
def branchTo (hash : Str) : Ledger :=
  { genesis with
    chain := [blockOf 0 (str "genesis"), blockOf 1 hash]
    chainNonempty := by simp
    historyPruned := false }

/-- The requests of a node with a branch of its own. -/
theorem catchup_requests_accepted_branch :
    (∀ peerStatus request, (branchTo (str "left")).maybeRequestCatchup peerStatus = some request →
        validateEnvelopeLimits request = .ok ()) ∧
      validateEnvelopeLimits (branchTo (str "left")).requestForkBlocks = .ok () :=
  Ledger.catchup_requests_accepted (by change 2 ≤ 2 ^ 53; decide)

lemma branches_fork : Ledger.ForksAt (branchTo (str "left")) (branchTo (str "right")) 1 where
  positive := one_pos
  within := one_le_two
  shared := by
    intro index hindex block hblock
    obtain rfl : index = 0 := by omega
    obtain rfl : blockOf 0 (str "genesis") = block := Option.some.inj hblock
    exact ⟨_, rfl, rfl⟩
  apart := by
    intro index hindex block hblock known hknown
    have hlt := (List.getElem?_eq_some_iff.mp hblock).1
    obtain rfl : index = 1 := by
      change index < 2 at hlt
      omega
    obtain rfl : blockOf 1 (str "left") = block := Option.some.inj hblock
    rcases List.mem_pair.mp hknown with rfl | rfl
    · change str "genesis" ≠ str "left"
      decide
    · change str "right" ≠ str "left"
      decide

/-- Two branches of one block. -/
theorem locator_finds_fork_branches : ∃ common block, common < 1 ∧
    (branchTo (str "left")).chain[common]? = some block ∧
    1 - 1 - common ≤ (branchTo (str "left")).chain.length - 1 - 11 ∧
    (branchTo (str "right")).blocksAfterLocator (branchTo (str "left")).blockLocator 128
      = ((branchTo (str "right")).chain.drop (block.height + 1)).take 128 := by
  refine Ledger.locator_finds_fork branches_fork rfl ?_ ?_ (by change 2 ≤ u64Max; decide) 128
  · intro index block hblock
    have hlt := (List.getElem?_eq_some_iff.mp hblock).1
    change index < 2 at hlt
    interval_cases index
    · obtain rfl : blockOf 0 (str "genesis") = block := Option.some.inj hblock
      rfl
    · obtain rfl : blockOf 1 (str "right") = block := Option.some.inj hblock
      rfl
  · change [str "genesis", str "right"].Nodup
    decide

end Iuna.Toy
