import Iuna.Library.Runs
import Iuna.Properties.Atomicity
import Iuna.Properties.Eviction
import Iuna.Properties.PoolUpdates

/-!
# The counters and the limits of the pools

The byte counters of the pools are adjusted in many places and recounted in two.  Along every run
they are the sums of the sizes of what waits, each pool keeps its own limits, and no signature
waits twice (`Pools.Counted`).  These are the pools on which an eviction plan is sound.
-/

namespace Iuna

open Mutate

/-- The length of a v2 transaction in the encoding for a domain. -/
def TransactionV2.encodedLen (domain : Result TransactionV2Domain) (transaction : TransactionV2) :
    ℕ :=
  match domain >>= transaction.encode with
  | .ok encoded => encoded.length
  | .error _ => 0

/-- Pools with distinct signatures and exact counters, each within its limits. -/
structure Pools.Counted (domain : Result TransactionV2Domain) (pools : Pools) : Prop where
  distinct : ((pools.pending ++ pools.orphans).map Transaction.signature).Nodup
  pendingBytes : pools.pendingBytes = (pools.pending.map Transaction.jsonSize).sum
  orphanBytes : pools.orphanBytes = (pools.orphans.map Transaction.jsonSize).sum
  pendingV2Bytes : pools.pendingV2Bytes
    = (pools.pendingV2.map (TransactionV2.encodedLen domain)).sum
  pendingCount : pools.pending.length ≤ maxPendingTransactions
  orphanCount : pools.orphans.length ≤ maxOrphanTransactions
  pendingLimit : pools.pendingBytes ≤ maxPendingPoolBytes
  orphanLimit : pools.orphanBytes ≤ maxPendingPoolBytes
  pendingV2Limit : pools.pendingV2Bytes ≤ maxPendingPoolBytes

section Pools

variable {domain : Result TransactionV2Domain} {pools : Pools}

lemma counted_empty : Pools.empty.Counted domain := by
  constructor <;> simp [Pools.empty]

lemma saturatingAdd_of_limit {a b : ℕ} (h : a + b ≤ maxPendingPoolBytes) :
    saturatingAdd a b = a + b := by
  have hlimit : maxPendingPoolBytes ≤ u64Max := by decide
  unfold saturatingAdd
  omega

/-- What a recount leaves after transactions have been dropped. -/
lemma Pools.Counted.recount (counted : pools.Counted domain)
    (keepPending keepOrphan : Transaction → Bool) :
    ∃ left, Ledger.refreshPendingPoolByteCounters { pools with
        pending := pools.pending.filter keepPending
        orphans := pools.orphans.filter keepOrphan } = .ok () left
      ∧ left.Counted domain ∧ left.pending = pools.pending.filter keepPending
      ∧ left.orphans = pools.orphans.filter keepOrphan := by
  have hlimit : maxPendingPoolBytes ≤ u64Max := by decide
  have hpending := sum_map_filter_le Transaction.jsonSize keepPending pools.pending
  have horphans := sum_map_filter_le Transaction.jsonSize keepOrphan pools.orphans
  have hpendingLimit := counted.pendingBytes ▸ counted.pendingLimit
  have horphanLimit := counted.orphanBytes ▸ counted.orphanLimit
  refine ⟨{ pools with
    pending := pools.pending.filter keepPending
    orphans := pools.orphans.filter keepOrphan
    pendingBytes := ((pools.pending.filter keepPending).map Transaction.jsonSize).sum
    orphanBytes := ((pools.orphans.filter keepOrphan).map Transaction.jsonSize).sum }, ?_, ?_, rfl,
    rfl⟩
  · simp only [Ledger.refreshPendingPoolByteCounters, Mutate.get_bind_eq_ok, Mutate.liftM_eq_lift,
      Mutate.lift_bind_eq_ok, Mutate.modify_bind_eq_ok, Mutate.modify_eq_ok]
    exact ⟨_, Ledger.serializedPoolLen_of_sum (by omega), _,
      Ledger.serializedPoolLen_of_sum (by omega), rfl⟩
  · refine ⟨counted.distinct.sublist (List.Sublist.map _
      (List.Sublist.append List.filter_sublist List.filter_sublist)), rfl, rfl,
      counted.pendingV2Bytes, ?_, ?_, by dsimp only; omega, by dsimp only; omega,
      counted.pendingV2Limit⟩
    · exact (List.length_filter_le _ _).trans counted.pendingCount
    · exact (List.length_filter_le _ _).trans counted.orphanCount

/-- A transaction joins the pending pool. -/
lemma Pools.Counted.push (counted : pools.Counted domain) {transaction : Transaction}
    (isNew : transaction.signature ∉ (pools.pending ++ pools.orphans).map Transaction.signature)
    (count : pools.pending.length + 1 ≤ maxPendingTransactions)
    (bytes : pools.pendingBytes + transaction.jsonSize ≤ maxPendingPoolBytes) :
    Pools.Counted domain { pools with
      pending := pools.pending ++ [transaction]
      pendingBytes := saturatingAdd pools.pendingBytes transaction.jsonSize } := by
  rw [saturatingAdd_of_limit bytes]
  have hperm : (pools.pending ++ [transaction] ++ pools.orphans).Perm
      (transaction :: (pools.pending ++ pools.orphans)) := by
    rw [List.append_assoc]
    exact List.perm_middle
  refine ⟨?_, ?_, counted.orphanBytes, counted.pendingV2Bytes, ?_, counted.orphanCount, bytes,
    counted.orphanLimit, counted.pendingV2Limit⟩
  · rw [(hperm.map _).nodup_iff, List.map_cons]
    exact List.nodup_cons.mpr ⟨isNew, counted.distinct⟩
  · simp [counted.pendingBytes]
  · simpa using count

/-- A transaction waits among the orphans. -/
lemma Pools.Counted.pushOrphan (counted : pools.Counted domain) {transaction : Transaction}
    (isNew : transaction.signature ∉ (pools.pending ++ pools.orphans).map Transaction.signature)
    (count : pools.orphans.length + 1 ≤ maxOrphanTransactions)
    (bytes : pools.orphanBytes + transaction.jsonSize ≤ maxPendingPoolBytes) :
    Pools.Counted domain { pools with
      orphans := pools.orphans ++ [transaction]
      orphanBytes := saturatingAdd pools.orphanBytes transaction.jsonSize } := by
  rw [saturatingAdd_of_limit bytes]
  have hperm : (pools.pending ++ (pools.orphans ++ [transaction])).Perm
      (transaction :: (pools.pending ++ pools.orphans)) := by
    rw [← List.append_assoc]
    exact List.perm_append_singleton _ _
  refine ⟨?_, counted.pendingBytes, ?_, counted.pendingV2Bytes, counted.pendingCount, ?_,
    counted.pendingLimit, bytes, counted.pendingV2Limit⟩
  · rw [(hperm.map _).nodup_iff, List.map_cons]
    exact List.nodup_cons.mpr ⟨isNew, counted.distinct⟩
  · simp [counted.orphanBytes]
  · simpa using count

/-- An orphan is promoted. -/
lemma Pools.Counted.promote (counted : pools.Counted domain) {transaction : Transaction}
    {index : ℕ} (get : pools.orphans[index]? = some transaction)
    (count : pools.pending.length < maxPendingTransactions)
    (bytes : pools.pendingBytes + transaction.jsonSize ≤ maxPendingPoolBytes) :
    Pools.Counted domain { pools with
      orphans := pools.orphans.eraseIdx index
      orphanBytes := pools.orphanBytes - transaction.jsonSize
      pending := pools.pending ++ (pools.orphans[index]?).toList
      pendingBytes := saturatingAdd pools.pendingBytes transaction.jsonSize } := by
  obtain ⟨hindex, hget⟩ := List.getElem?_eq_some_iff.mp get
  have hsizes := sum_map_eraseIdx Transaction.jsonSize hindex
  have hperm := List.getElem_cons_eraseIdx_perm hindex
  rw [hget] at hsizes hperm
  rw [get, Option.toList_some, saturatingAdd_of_limit bytes]
  have horphanBytes := counted.orphanBytes
  have horphanLimit := counted.orphanLimit
  refine ⟨?_, ?_, by dsimp only; omega, counted.pendingV2Bytes, ?_, ?_, bytes,
    by dsimp only; omega, counted.pendingV2Limit⟩
  · have hmoved : (pools.pending ++ [transaction] ++ pools.orphans.eraseIdx index).Perm
        (pools.pending ++ pools.orphans) := by
      rw [List.append_assoc]
      exact hperm.append_left _
    exact (hmoved.map _).nodup_iff.mpr counted.distinct
  · simp [counted.pendingBytes]
  · rw [List.length_append]
    exact count
  · exact (List.length_eraseIdx_le _ _).trans counted.orphanCount

/-- Another v2 pool. -/
lemma Pools.Counted.withV2 (counted : pools.Counted domain) {pendingV2 : List TransactionV2}
    {bytes : ℕ} (exact_ : bytes = (pendingV2.map (TransactionV2.encodedLen domain)).sum)
    (limit : bytes ≤ maxPendingPoolBytes) :
    Pools.Counted domain { pools with pendingV2 := pendingV2, pendingV2Bytes := bytes } :=
  ⟨counted.distinct, counted.pendingBytes, counted.orphanBytes, exact_, counted.pendingCount,
    counted.orphanCount, counted.pendingLimit, counted.orphanLimit, limit⟩

/-- Without a plan there is no room, and nothing has changed. -/
lemma makePendingRoom_without_plan {candidate : Transaction} {candidateBytes : ℕ} {error : Error}
    (required : pools.pendingRoomRequired candidateBytes = true)
    (noPlan : pendingEvictionPlan pools.pending pools.orphans candidate candidateBytes
      = .error error) : makePendingRoom candidate candidateBytes pools = .error error pools := by
  rw [makePendingRoom, get_bind_eq_error, if_pos required, liftM_eq_lift, lift_bind_eq_error]
  exact .inl ⟨noPlan, rfl⟩

/-- The making of room fails and changes nothing, or there is room afterwards. -/
lemma makePendingRoom_cases (counted : pools.Counted domain) (candidate : Transaction)
    (candidateBytes : ℕ) :
    (∃ e, makePendingRoom candidate candidateBytes pools = .error e pools)
      ∨ ∃ left, makePendingRoom candidate candidateBytes pools = .ok () left
        ∧ left.Counted domain ∧ left.pending.Sublist pools.pending
        ∧ left.orphans.Sublist pools.orphans
        ∧ left.pending.length + 1 ≤ maxPendingTransactions
        ∧ left.pendingBytes + candidateBytes ≤ maxPendingPoolBytes := by
  by_cases hrequired : pools.pendingRoomRequired candidateBytes = true
  · cases hplan : pendingEvictionPlan pools.pending pools.orphans candidate candidateBytes with
    | error e =>
      exact .inl ⟨e, makePendingRoom_without_plan hrequired hplan⟩
    | ok evicted =>
      have hsound := pendingEvictionPlan_sound counted.distinct hplan
      obtain ⟨left, hrefresh, hcounted, hpending, horphans⟩ := counted.recount
        (fun transaction => transaction.signature ∉ evicted)
        (fun transaction => transaction.signature ∉ evicted)
      refine .inr ⟨left, ?_, hcounted, ?_, ?_, ?_, ?_⟩
      · rw [makePendingRoom, get_bind_eq_ok, if_pos hrequired, liftM_eq_lift, lift_bind_eq_ok]
        refine ⟨evicted, hplan, ?_⟩
        rw [modify_bind_eq_ok]
        exact hrefresh
      · exact hpending ▸ List.filter_sublist
      · exact horphans ▸ List.filter_sublist
      · exact hpending ▸ hsound.count
      · rw [hcounted.pendingBytes, hpending]
        exact hsound.bytes
  · refine .inr ⟨pools, ?_, counted, .refl _, .refl _, ?_⟩
    · rw [makePendingRoom, get_bind_eq_ok, if_neg hrequired]
      exact pure_eq_ok.mpr ⟨rfl, rfl⟩
    · simp only [Pools.pendingRoomRequired, Bool.decide_or, Bool.or_eq_true, decide_eq_true_eq,
        not_or, not_le, not_lt] at hrequired
      exact hrequired

end Pools

/-! ## Legacy submissions -/

namespace Ledger

variable [Crypto] {ledger : Ledger} {domain : Result TransactionV2Domain} {pools : Pools}
  {transaction : Transaction}

omit [Crypto] in
lemma checkedAddBytes_eq_ok {a b total : ℕ} (h : checkedAddBytes a b = .ok total) :
    a + b = total := by
  simp only [checkedAddBytes, orError, Outcome.ofOption_eq_ok, checkedAdd_eq_some] at h
  exact h.1

/-- What the scan for an orphan promises of the one that it returns. -/
lemma findPromotedOrphan_spec {entries : List (Transaction × ℕ)} {utxos : Utxos} {index bytes : ℕ}
    (h : ledger.findPromotedOrphan entries utxos = .ok (some (index, bytes))) :
    ∃ orphan, (orphan, index) ∈ entries ∧ bytes = orphan.jsonSize
      ∧ ledger.pendingBytes + orphan.jsonSize ≤ maxPendingPoolBytes
      ∧ Outcome.succeeds (ledger.validateNewTransaction orphan) = true := by
  induction entries generalizing utxos with
  | nil => cases h
  | cons entry entries ih =>
    obtain ⟨orphan, position⟩ := entry
    have hskip {utxos : Utxos}
        (hrest : ledger.findPromotedOrphan entries utxos = .ok (some (index, bytes))) :
        ∃ other, (other, index) ∈ (orphan, position) :: entries ∧ bytes = other.jsonSize
          ∧ ledger.pendingBytes + other.jsonSize ≤ maxPendingPoolBytes
          ∧ Outcome.succeeds (ledger.validateNewTransaction other) = true := by
      obtain ⟨other, hmem, hother⟩ := ih hrest
      exact ⟨other, List.mem_cons_of_mem _ hmem, hother⟩
    unfold findPromotedOrphan at h
    split at h
    · exact hskip h
    · rename_i hvalid
      simp only [not_or, Bool.not_eq_false] at hvalid
      dsimp only at h
      split at h
      · simp only [Outcome.bind_eq_ok, checkedAddBytes, orError, Outcome.ofOption_eq_ok,
          checkedAdd_eq_some] at h
        obtain ⟨total, ⟨rfl, -⟩, h⟩ := h
        split at h
        · exact hskip h
        · rename_i hroom
          simp only [Outcome.pure_eq_ok, Option.some.injEq, Prod.mk.injEq] at h
          obtain ⟨rfl, rfl⟩ := h
          exact ⟨orphan, List.mem_cons_self, rfl, not_lt.mp hroom, hvalid.2.2⟩
      · exact hskip h

lemma promoteOrphanRounds_counted (rounds : ℕ) :
    Preserves (Pools.Counted domain) (ledger.promoteOrphanRounds rounds) := by
  induction rounds with
  | zero => exact preserves_pure _
  | succ rounds ih =>
    refine preserves_get_bind fun pools counted => ?_
    by_cases hfull : maxPendingTransactions ≤ pools.pending.length
    · rw [if_pos hfull]
      exact counted
    · rw [if_neg hfull]
      refine holds_lift_bind counted fun utxos _ => ?_
      refine holds_lift_bind counted fun promoted hpromoted => ?_
      cases promoted with
      | none => exact counted
      | some promoted =>
        obtain ⟨index, bytes⟩ := promoted
        obtain ⟨orphan, hmem, rfl, hroom, -⟩ := findPromotedOrphan_spec hpromoted
        have hget := List.mem_zipIdx_iff_getElem?.mp hmem
        refine ih _ ?_
        exact counted.promote hget (not_le.mp hfull) hroom

lemma promoteOrphanTransactions_counted :
    Preserves (Pools.Counted domain) ledger.promoteOrphanTransactions :=
  preserves_get_bind fun _ counted => promoteOrphanRounds_counted _ _ counted

lemma admitPending_counted (counted : pools.Counted domain)
    (isNew : transaction.signature ∉ (pools.pending ++ pools.orphans).map Transaction.signature)
    (signingDomain : TransactionSigningDomain) :
    (after (ledger.admitPending transaction signingDomain transaction.jsonSize) pools).Counted
      domain := by
  unfold admitPending
  rcases makePendingRoom_cases counted transaction transaction.jsonSize with
    ⟨e, hfailed⟩ | ⟨left, hroom, hleft, hpending, horphans, hcount, hbytes⟩
  · rw [after_bind_of_error hfailed]
    exact counted
  · rw [after_bind_of_ok hroom]
    rw [after_get_bind]
    refine holds_lift_bind hleft fun utxos _ => ?_
    refine holds_lift_bind hleft fun _ _ => ?_
    refine holds_lift_bind hleft fun _ _ => ?_
    have hnew : transaction.signature
        ∉ (left.pending ++ left.orphans).map Transaction.signature := fun hmem =>
      isNew (((hpending.append horphans).map _).subset hmem)
    exact promoteOrphanTransactions_counted _ (hleft.push hnew hcount hbytes)

omit [Crypto] in
lemma restoringOnFailure_counted {α : Type} {backup : Option Pools}
    (saved : ∀ other, backup = some other → other.Counted domain) {x : Mutate Error Pools α}
    (counted : (after x pools).Counted domain) :
    (after (restoringOnFailure backup x) pools).Counted domain := by
  cases hx : x pools with
  | ok a left =>
    rw [after_of_ok hx] at counted
    have hafter : after (restoringOnFailure backup x) pools = left := by
      simp only [after, restoringOnFailure, hx]
    exact hafter ▸ counted
  | error e left =>
    rw [after_of_error hx] at counted
    cases backup with
    | none =>
      have hafter : after (restoringOnFailure none x) pools = left := by
        simp only [after, restoringOnFailure, hx]
      exact hafter ▸ counted
    | some other =>
      have hafter : after (restoringOnFailure (some other) x) pools = { left with
          pending := other.pending, orphans := other.orphans,
          pendingBytes := other.pendingBytes, orphanBytes := other.orphanBytes } := by
        simp only [after, restoringOnFailure, hx]
      rw [hafter]
      have hother := saved other rfl
      exact ⟨hother.distinct, hother.pendingBytes, hother.orphanBytes, counted.pendingV2Bytes,
        hother.pendingCount, hother.orphanCount, hother.pendingLimit, hother.orphanLimit,
        counted.pendingV2Limit⟩

omit [Crypto] in
/-- A transaction that is not known waits nowhere. -/
lemma notWaiting_of_not_hasTransaction
    (h : ¬ (ledger.withPools pools).hasTransaction transaction.signature = true) :
    transaction.signature ∉ (pools.pending ++ pools.orphans).map Transaction.signature := by
  intro hmem
  obtain ⟨other, hother, hsignature⟩ := List.mem_map.mp hmem
  apply h
  simp only [hasTransaction, Bool.decide_or, Bool.or_eq_true, decide_eq_true_eq]
  exact .inr (List.any_eq_true.mpr ⟨other, hother, by simpa using hsignature⟩)

theorem submitTransactionWithOutcome_counted (transaction : Transaction) :
    Preserves (Pools.Counted domain) (ledger.submitTransactionWithOutcome transaction) := by
  refine preserves_get_bind fun pools counted => ?_
  dsimp only
  by_cases hknown : (ledger.withPools pools).hasTransaction transaction.signature = true
  · rw [if_pos hknown]
    exact counted
  · have hnew := notWaiting_of_not_hasTransaction hknown
    rw [if_neg hknown]
    refine holds_lift_bind counted fun _ _ => ?_
    refine holds_lift_bind counted fun _ _ => ?_
    refine holds_lift_bind counted fun _ _ => ?_
    refine holds_lift_bind counted fun _ _ => ?_
    refine holds_lift_bind counted fun _ _ => ?_
    split
    · exact counted
    · refine holds_lift_bind counted fun utxos _ => ?_
      split
      · refine holds_lift_bind counted fun _ hcount => ?_
        refine holds_lift_bind counted fun totalBytes htotal => ?_
        refine holds_lift_bind counted fun _ hbytes => ?_
        have hbelow := not_lt.mp (Outcome.bailIf_eq_ok.mp hbytes)
        rw [← checkedAddBytes_eq_ok htotal] at hbelow
        exact counted.pushOrphan hnew (not_le.mp (Outcome.bailIf_eq_ok.mp hcount)) hbelow
      · refine holds_lift_bind counted fun _ _ => ?_
        let backup := if pools.pendingRoomRequired transaction.jsonSize then some pools else none
        have hsaved : ∀ other, backup = some other → other.Counted domain := by
          intro other hother
          dsimp only [backup] at hother
          split at hother
          · exact Option.some.inj hother ▸ counted
          · cases hother
        have hadmitted := @admitPending_counted _ ledger _ _ _ counted hnew
          ((ledger.withPools pools).transactionSigningDomainForPending transaction)
        exact preserves_bind (fun _ _ => restoringOnFailure_counted hsaved hadmitted)
          (fun _ => preserves_pure _) pools counted

/-! ## v2 submissions -/

omit [Crypto] in
/-- The end of a v2 submission appends the transaction and counts its bytes. -/
lemma appendV2_counted {transaction : TransactionV2} {length : ℕ} (counted : pools.Counted domain)
    (hroom : pools.pendingV2Bytes + length ≤ maxPendingPoolBytes)
    (hlen : transaction.encodedLen domain = length) (applied : Result (Unit × Utxos)) :
    (after (do
      let (_, _) ← (liftM applied : Mutate Error Pools (Unit × Utxos))
      modify fun pools => { pools with
        pendingV2 := pools.pendingV2 ++ [transaction]
        pendingV2Bytes := saturatingAdd pools.pendingV2Bytes length }
      pure TransactionSubmitOutcome.added) pools).Counted domain := by
  refine holds_lift_bind counted fun _ _ => ?_
  refine counted.withV2 ?_ ?_
  · rw [saturatingAdd_of_limit hroom, counted.pendingV2Bytes, List.map_append, List.sum_append,
      List.map_singleton, List.sum_singleton, hlen]
  · rw [saturatingAdd_of_limit hroom]
    exact hroom

theorem submitTransactionV2_counted (transaction : TransactionV2) :
    Preserves (Pools.Counted ledger.transactionV2Domain) (ledger.submitTransactionV2 transaction) := by
  refine preserves_get_bind fun pools counted => ?_
  dsimp only
  refine holds_lift_bind counted fun _ _ => ?_
  refine holds_lift_bind counted fun _ _ => ?_
  refine holds_lift_bind counted fun _ _ => ?_
  refine holds_lift_bind counted fun domain hdomain => ?_
  refine holds_lift_bind counted fun transactionId _ => ?_
  split
  · exact counted
  · refine holds_lift_bind counted fun _ _ => ?_
    refine holds_lift_bind counted fun encoded hencoded => ?_
    refine holds_lift_bind counted fun _ _ => ?_
    refine holds_lift_bind counted fun _ _ => ?_
    refine holds_lift_bind counted fun _ hbytes => ?_
    refine holds_lift_bind counted fun utxos _ => ?_
    have hbelow := not_lt.mp (Outcome.bailIf_eq_ok.mp hbytes)
    have hlen : transaction.encodedLen ledger.transactionV2Domain = encoded.length := by
      have hboth : (ledger.transactionV2Domain >>= transaction.encode) = .ok encoded :=
        Outcome.bind_eq_ok.mpr ⟨domain, hdomain, hencoded⟩
      simp only [TransactionV2.encodedLen, hboth]
    have hroom : pools.pendingV2Bytes + encoded.length ≤ maxPendingPoolBytes := by
      have hv2 := counted.pendingV2Limit
      have hsaturating : pools.pendingV2Bytes ≤ saturatingAdd pools.pendingBytes
          pools.pendingV2Bytes := by
        have hlimit : maxPendingPoolBytes ≤ u64Max := by decide
        unfold saturatingAdd
        omega
      omega
    have hadd := appendV2_counted counted hroom hlen
      (outcome (applyTransactionV2ToUtxos transaction domain (ledger.withPools pools).network) utxos)
    split
    · split
      · exact holds_lift_bind counted fun _ _ => hadd
      · exact hadd
    · exact hadd

/-- The v2 pool is rebuilt from some of the transactions that it had. -/
lemma revalidatePendingV2Loop_counted {domain : TransactionV2Domain}
    (hdomain : ledger.transactionV2Domain = .ok domain) (height : ℕ)
    (transactions : List TransactionV2) (utxos : Utxos)
    (counted : pools.Counted ledger.transactionV2Domain)
    (room : pools.pendingV2Bytes + (transactions.map
      (TransactionV2.encodedLen ledger.transactionV2Domain)).sum ≤ maxPendingPoolBytes) :
    (after (ledger.revalidatePendingV2Loop domain height transactions utxos) pools).Counted
      ledger.transactionV2Domain := by
  induction transactions generalizing utxos pools with
  | nil => exact counted
  | cons transaction rest ih =>
    rw [List.map_cons, List.sum_cons] at room
    unfold revalidatePendingV2Loop
    refine holds_lift_bind counted fun encoded hencoded => ?_
    have hlen : transaction.encodedLen ledger.transactionV2Domain = encoded.length := by
      have hboth : (ledger.transactionV2Domain >>= transaction.encode) = .ok encoded :=
        Outcome.bind_eq_ok.mpr ⟨domain, hdomain, hencoded⟩
      simp only [TransactionV2.encodedLen, hboth]
    rw [hlen] at room
    have hsum : saturatingAdd pools.pendingV2Bytes encoded.length
        = pools.pendingV2Bytes + encoded.length := saturatingAdd_of_limit (by omega)
    have hkept : Pools.Counted ledger.transactionV2Domain { pools with
        pendingV2 := pools.pendingV2 ++ [transaction]
        pendingV2Bytes := saturatingAdd pools.pendingV2Bytes encoded.length } := by
      refine counted.withV2 ?_ ?_
      · rw [hsum, counted.pendingV2Bytes, List.map_append, List.sum_append, List.map_singleton,
          List.sum_singleton, hlen]
      · rw [hsum]
        omega
    have hkeptRoom : saturatingAdd pools.pendingV2Bytes encoded.length + (rest.map
        (TransactionV2.encodedLen ledger.transactionV2Domain)).sum ≤ maxPendingPoolBytes := by
      rw [hsum]
      omega
    split
    split
    · exact ih _ hkept hkeptRoom
    · exact ih _ counted (by omega)

lemma revalidatePendingV2_counted :
    Preserves (Pools.Counted ledger.transactionV2Domain) ledger.revalidatePendingV2 := by
  intro pools counted
  unfold revalidatePendingV2
  dsimp only
  split
  · exact counted.withV2 rfl (Nat.zero_le _)
  · refine holds_lift_bind counted fun domain hdomain => ?_
    rw [after_get_bind]
    refine revalidatePendingV2Loop_counted hdomain _ _ _ (counted.withV2 rfl (Nat.zero_le _)) ?_
    dsimp only
    rw [Nat.zero_add, ← counted.pendingV2Bytes]
    exact counted.pendingV2Limit

/-! ## Blocks and reorganizations -/

lemma refreshPools_counted (minedSignatures : List Str) :
    Preserves (Pools.Counted ledger.transactionV2Domain) (ledger.refreshPools minedSignatures) := by
  intro pools counted
  obtain ⟨left, hrecount, hleft, -⟩ := counted.recount
    (fun transaction => transactionInputsAvailable transaction ledger.utxos
      ∧ ledger.survivesBlock minedSignatures transaction)
    (ledger.survivesBlock minedSignatures)
  unfold refreshPools
  have hfilter : after (modify (fun pools : Pools => { pools with
      pending := pools.pending.filter fun transaction =>
        transactionInputsAvailable transaction ledger.utxos
          ∧ ledger.survivesBlock minedSignatures transaction
      orphans := pools.orphans.filter (ledger.survivesBlock minedSignatures) }) >>= fun _ => do
    refreshPendingPoolByteCounters
    ledger.promoteOrphanTransactions
    ledger.revalidatePendingV2) pools = after (do
      ledger.promoteOrphanTransactions
      ledger.revalidatePendingV2) left := after_bind_of_ok hrecount
  rw [hfilter]
  exact preserves_bind promoteOrphanTransactions_counted
    (fun _ => revalidatePendingV2_counted) left hleft

/-- The pools of a ledger are counted in its own domain. -/
def PoolsCounted (ledger : Ledger) : Prop := ledger.toPools.Counted ledger.transactionV2Domain

lemma applyBlock_poolsCounted (block : Block) (verifyVdf : Bool) (nowMs : ℕ) :
    Preserves PoolsCounted (applyBlockWithVdfPolicy block verifyVdf nowMs) := by
  refine preserves_get_bind fun ledger counted => ?_
  refine preserves_bind (preserves_lift _) (fun isNew => ?_) ledger counted
  refine preserves_ite ?_ (preserves_pure _)
  refine preserves_bind (preserves_lift _) fun _ => ?_
  refine preserves_bind (preserves_lift _) fun effects => ?_
  refine preserves_bind (preserves_lift _) fun context => ?_
  have hrecord : PoolsCounted (ledger.recordBlock block effects context) := by
    obtain ⟨hpools, hdomain⟩ := recordBlock_domain ledger block effects context
    rw [PoolsCounted, hpools, hdomain]
    exact counted
  refine preserves_bind (preserves_set hrecord) fun _ => ?_
  refine preserves_get_bind fun recorded hrecorded => ?_
  let InDomain (other : Ledger) : Prop := other.toPools.Counted recorded.transactionV2Domain
    ∧ other.transactionV2Domain = recorded.transactionV2Domain
  have hzoom : Preserves InDomain (zoom Ledger.toPools withPools
      (recorded.refreshPools (block.transactions.map Transaction.signature))) :=
    preserves_zoom (refreshPools_counted _) (fun _ h => h.1) fun _ _ h hpools => ⟨hpools, h.2⟩
  have hrefreshed : Preserves InDomain (zoom Ledger.toPools withPools
      (recorded.refreshPools (block.transactions.map Transaction.signature)) >>= fun _ =>
        modify fun ledger => { ledger with vdfRounds := ledger.nextVdfRoundsAfterTip }) :=
    preserves_bind hzoom fun _ => preserves_modify fun _ h => ⟨h.1, h.2⟩
  have hlast := hrefreshed recorded ⟨hrecorded, rfl⟩
  have hcounted := hlast.1
  rw [← hlast.2] at hcounted
  exact hcounted

lemma applyBlocks_poolsCounted (blocks : List Block) (verifyVdf : Bool) (nowMs : ℕ) :
    Preserves PoolsCounted (forM blocks fun block =>
      applyBlockWithVdfPolicy block verifyVdf nowMs) :=
  preserves_forM fun block _ => applyBlock_poolsCounted block verifyVdf nowMs

lemma initial_poolsCounted (initial : Initial ledger) : ledger.PoolsCounted := by
  obtain ⟨_, _, _, _, _, _, _, _, -, -, -, -, rfl⟩ := initial_eq initial
  exact counted_empty

omit [Crypto] in
/-- A submission to a ledger. -/
lemma submitIgnoringErrors_poolsCounted {α : Type} {submit : Ledger → Mutate Error Pools α}
    (preserves : Preserves (Pools.Counted ledger.transactionV2Domain) (submit ledger))
    (counted : ledger.PoolsCounted) : (ledger.submitIgnoringErrors submit).PoolsCounted := by
  have hafter := preserves ledger.toPools counted
  unfold submitIgnoringErrors
  cases hrun : submit ledger ledger.toPools with
  | ok a pools => exact after_of_ok hrun ▸ hafter
  | error e pools => exact after_of_error hrun ▸ hafter

omit [Crypto] in
lemma foldl_submit_poolsCounted {τ α : Type} {submit : τ → Ledger → Mutate Error Pools α}
    (preserves : ∀ (item : τ) (ledger : Ledger),
      Preserves (Pools.Counted ledger.transactionV2Domain) (submit item ledger))
    (items : List τ) {start : Ledger} (counted : start.PoolsCounted) :
    (items.foldl (fun candidate item => candidate.submitIgnoringErrors (submit item))
      start).PoolsCounted := by
  induction items generalizing start with
  | nil => exact counted
  | cons item items ih =>
    exact ih (submitIgnoringErrors_poolsCounted (preserves item start) counted)

lemma replaceWithBetterChain_poolsCounted {candidate : Ledger} (counted : candidate.PoolsCounted)
    (ledger : Ledger) (staleBlocks : List Block) :
    (ledger.replaceWithBetterChain candidate staleBlocks).PoolsCounted := by
  apply foldl_submit_poolsCounted fun transaction ledger => submitTransactionV2_counted transaction
  exact foldl_submit_poolsCounted
    (fun transaction ledger => submitTransactionWithOutcome_counted transaction) _ counted

lemma snapshot_poolsCounted {snapshot : ChainSnapshot} {verifyVdf : Bool} {nowMs : ℕ}
    (rebuilt : fromSnapshotWithVdfPolicy snapshot verifyVdf nowMs = .ok ledger) :
    ledger.PoolsCounted := by
  simp only [fromSnapshotWithVdfPolicy, Outcome.bind_eq_ok, Outcome.pure_eq_ok,
    Mutate.outcome_eq_ok, Prod.exists] at rebuilt
  obtain ⟨start, hstart, _, last, hblocks, rfl⟩ := rebuilt
  exact (applyBlocks_poolsCounted _ _ _).of_ok hblocks (initial_poolsCounted (.snapshot hstart))

lemma applyPreverifiedBlocks_poolsCounted {blocks : List Block} {nowMs : ℕ} {extended : Ledger}
    (counted : ledger.PoolsCounted)
    (applied : applyPreverifiedBlocks blocks nowMs ledger = .ok extended) :
    extended.PoolsCounted := by
  simp only [applyPreverifiedBlocks, Outcome.bind_eq_ok, Mutate.outcome_eq_ok,
    Outcome.pure_eq_ok] at applied
  obtain ⟨⟨_, left⟩, hblocks, rfl⟩ := applied
  exact (applyBlocks_poolsCounted _ _ _).of_ok hblocks counted

/-- What a candidate chain leaves. -/
lemma adoptCandidate_poolsCounted {candidate ledger' : Ledger} {replaced : Bool}
    (counted : ledger.PoolsCounted) (hcandidate : candidate.PoolsCounted)
    (adopted : ledger.adoptCandidate candidate = .ok (replaced, ledger')) :
    ledger'.PoolsCounted := by
  simp only [adoptCandidate, Outcome.bind_eq_ok] at adopted
  obtain ⟨ancestor, -, adopted⟩ := adopted
  split at adopted
  · simp only [Outcome.pure_eq_ok, Prod.mk.injEq] at adopted
    exact adopted.2 ▸ counted
  · simp only [Outcome.pure_eq_ok, Prod.mk.injEq] at adopted
    rw [← adopted.2]
    exact replaceWithBetterChain_poolsCounted hcandidate ledger _

lemma extendFromSnapshot_poolsCounted {snapshot : ChainSnapshot} {verifyVdf : Bool} {nowMs : ℕ}
    {replaced : Bool} {ledger' : Ledger} (counted : ledger.PoolsCounted)
    (extended : ledger.extendFromSnapshotWithVdfPolicy snapshot verifyVdf nowMs
      = .ok (replaced, ledger')) : ledger'.PoolsCounted := by
  simp only [extendFromSnapshotWithVdfPolicy, Outcome.bind_eq_ok] at extended
  obtain ⟨_, -, candidate, hcandidate, hadopted⟩ := extended
  exact adoptCandidate_poolsCounted counted (snapshot_poolsCounted hcandidate) hadopted

lemma validateBlocksExtension_poolsCounted {forkBase : Option PersistedForkBase}
    {blocks : List Block} {nowMs : ℕ} {validated : Ledger} (counted : ledger.PoolsCounted)
    (h : validateBlocksExtension forkBase blocks nowMs ledger = .ok validated) :
    validated.PoolsCounted := by
  cases blocks with
  | nil =>
    simp only [validateBlocksExtension, Outcome.pure_eq_ok] at h
    exact h ▸ counted
  | cons first rest =>
    unfold validateBlocksExtension at h
    dsimp only at h
    split at h
    · simp only [Outcome.bind_eq_ok, Outcome.pure_eq_ok] at h
      obtain ⟨extended, happlied, ⟨⟩, -, rfl⟩ := h
      exact applyPreverifiedBlocks_poolsCounted counted happlied
    · cases forkBase with
      | some known =>
        simp only [Outcome.bind_eq_ok, Outcome.pure_eq_ok] at h
        obtain ⟨_, -, candidate, happlied, ⟨⟩, -, ⟨replaced, adopted⟩, hadopted, rfl⟩ := h
        have hknown : known.ledger.PoolsCounted := by
          rw [PoolsCounted, known.rebuilt]
          exact counted_empty
        have hcandidate := applyPreverifiedBlocks_poolsCounted hknown happlied
        simp only [adoptPrevalidatedFork, Outcome.bind_eq_ok] at hadopted
        obtain ⟨_, -, ancestor, -, _, -, _, -, hadopted⟩ := hadopted
        split at hadopted
        · simp only [Outcome.pure_eq_ok, Prod.mk.injEq] at hadopted
          exact hadopted.2 ▸ counted
        · simp only [Outcome.pure_eq_ok, Prod.mk.injEq] at hadopted
          rw [← hadopted.2]
          exact replaceWithBetterChain_poolsCounted hcandidate ledger _
      | none =>
        simp only [Outcome.bind_eq_ok, Outcome.pure_eq_ok] at h
        obtain ⟨position, -, ⟨replaced, extended⟩, hextended, ⟨⟩, -, rfl⟩ := h
        exact extendFromSnapshot_poolsCounted counted hextended

end Ledger

/-! ## Runs -/

/-- What changes the pools of a ledger. -/
inductive MempoolEvent
  | submitted (transaction : Transaction)
  | submittedV2 (transaction : TransactionV2)
  | blockApplied (block : Block)
  | reorganized (snapshot : ChainSnapshot)
  | pageValidated (blocks : List Block)
  | historyPruned (recentLimit : ℕ)
  | legacyDisplaced
  | v2Displaced
  | pendingCleared

section Runs

variable [Crypto]

/-- One change of the pools, also one that fails.  The last three are the first halves of
`prioritize_transaction_for_block_building` and `prioritize_transaction_v2_for_block_building`,
whose second halves are submissions, and `clear_pending_transactions`. -/
inductive MempoolStep : Ledger → MempoolEvent → Ledger → Prop
  | submitted {ledger : Ledger} (transaction : Transaction) :
      MempoolStep ledger (.submitted transaction) (ledger.submitIgnoringErrors fun ledger =>
        ledger.submitTransactionWithOutcome transaction)
  | submittedV2 {ledger : Ledger} (transaction : TransactionV2) :
      MempoolStep ledger (.submittedV2 transaction) (ledger.submitIgnoringErrors fun ledger =>
        ledger.submitTransactionV2 transaction)
  | blockApplied {ledger : Ledger} (block : Block) (verifyVdf : Bool) (nowMs : ℕ) :
      MempoolStep ledger (.blockApplied block)
        (after (Ledger.applyBlockWithVdfPolicy block verifyVdf nowMs) ledger)
  | reorganized {ledger ledger' : Ledger} {snapshot : ChainSnapshot} {verifyVdf : Bool} {nowMs : ℕ}
      {replaced : Bool} (extended : ledger.extendFromSnapshotWithVdfPolicy snapshot verifyVdf nowMs
        = .ok (replaced, ledger')) : MempoolStep ledger (.reorganized snapshot) ledger'
  | pageValidated {ledger ledger' : Ledger} {forkBase : Option PersistedForkBase}
      {blocks : List Block} {nowMs : ℕ}
      (validated : validateBlocksExtension forkBase blocks nowMs ledger = .ok ledger') :
      MempoolStep ledger (.pageValidated blocks) ledger'
  | historyPruned {ledger : Ledger} (recentLimit : ℕ) :
      MempoolStep ledger (.historyPruned recentLimit) (ledger.retainRecentChainBlocks recentLimit)
  | legacyDisplaced {ledger : Ledger} : MempoolStep ledger .legacyDisplaced
      (ledger.withPools { ledger.toPools with
        pending := [], orphans := [], pendingBytes := 0, orphanBytes := 0 })
  | v2Displaced {ledger : Ledger} : MempoolStep ledger .v2Displaced
      (ledger.withPools { ledger.toPools with pendingV2 := [], pendingV2Bytes := 0 })
  | pendingCleared {ledger : Ledger} : MempoolStep ledger .pendingCleared
      (ledger.withPools { ledger.toPools with
        pending := [], pendingBytes := 0, pendingV2 := [], pendingV2Bytes := 0 })

variable {ledger ledger' : Ledger} {event : MempoolEvent}

/-- Every step keeps the counters and the limits. -/
lemma mempoolStep_poolsCounted (step : MempoolStep ledger event ledger')
    (counted : ledger.PoolsCounted) : ledger'.PoolsCounted := by
  cases step with
  | submitted transaction =>
    exact Ledger.submitIgnoringErrors_poolsCounted
      (Ledger.submitTransactionWithOutcome_counted transaction) counted
  | submittedV2 transaction =>
    exact Ledger.submitIgnoringErrors_poolsCounted
      (Ledger.submitTransactionV2_counted transaction) counted
  | blockApplied block verifyVdf nowMs =>
    exact Ledger.applyBlock_poolsCounted block verifyVdf nowMs ledger counted
  | reorganized extended => exact Ledger.extendFromSnapshot_poolsCounted counted extended
  | pageValidated validated => exact Ledger.validateBlocksExtension_poolsCounted counted validated
  | historyPruned recentLimit =>
    have hdomain : (ledger.retainRecentChainBlocks recentLimit).transactionV2Domain
        = ledger.transactionV2Domain :=
      Ledger.transactionV2Domain_congr (by simp) (by simp)
    have hpools : (ledger.retainRecentChainBlocks recentLimit).toPools = ledger.toPools := by
      unfold Ledger.retainRecentChainBlocks
      dsimp only
      split
      · rfl
      · rfl
    rw [Ledger.PoolsCounted, hdomain, hpools]
    exact counted
  | legacyDisplaced =>
    exact ⟨List.nodup_nil, rfl, rfl, counted.pendingV2Bytes, Nat.zero_le _, Nat.zero_le _,
      Nat.zero_le _, Nat.zero_le _, counted.pendingV2Limit⟩
  | v2Displaced => exact counted.withV2 rfl (Nat.zero_le _)
  | pendingCleared =>
    have hdistinct := counted.distinct.sublist
      ((List.sublist_append_right ledger.pending ledger.orphans).map Transaction.signature)
    exact ⟨hdistinct, rfl, counted.orphanBytes, rfl, Nat.zero_le _, counted.orphanCount,
      Nat.zero_le _, counted.orphanLimit, Nat.zero_le _⟩

/-- A submission for which there is no plan changes nothing, unless its inputs are missing and no
plan is asked for. -/
lemma submission_without_plan {transaction : Transaction} {error : Error}
    (required : ledger.toPools.pendingRoomRequired transaction.jsonSize = true)
    (noPlan : pendingEvictionPlan ledger.pending ledger.orphans transaction transaction.jsonSize
      = .error error) :
    after (ledger.submitTransactionWithOutcome transaction) ledger.toPools = ledger.toPools
      ∨ ∃ utxos, ledger.utxosAfterValidPending = .ok utxos
        ∧ transactionHasMissingInputs transaction utxos = true := by
  let Kept (pools : Pools) : Prop := pools = ledger.toPools
    ∨ ∃ utxos, ledger.utxosAfterValidPending = .ok utxos
      ∧ transactionHasMissingInputs transaction utxos = true
  have hkept : Kept ledger.toPools := .inl rfl
  suffices h : Kept (after (ledger.submitTransactionWithOutcome transaction) ledger.toPools) from h
  unfold Ledger.submitTransactionWithOutcome
  rw [after_get_bind]
  dsimp only
  split
  · exact hkept
  · refine holds_lift_bind hkept fun _ _ => ?_
    refine holds_lift_bind hkept fun _ _ => ?_
    refine holds_lift_bind hkept fun _ _ => ?_
    refine holds_lift_bind hkept fun _ _ => ?_
    refine holds_lift_bind hkept fun _ _ => ?_
    split
    · exact hkept
    · refine holds_lift_bind hkept fun utxos hutxos => ?_
      split
      · rename_i hmissing
        exact .inr ⟨utxos, hutxos, hmissing⟩
      · refine holds_lift_bind hkept fun _ _ => ?_
        have hadmitted (signingDomain : TransactionSigningDomain) :
            ledger.admitPending transaction signingDomain transaction.jsonSize ledger.toPools
              = .error error ledger.toPools := by
          rw [Ledger.admitPending, bind_eq_error]
          exact .inl (makePendingRoom_without_plan required noPlan)
        have hrestored (signingDomain : TransactionSigningDomain) : restoringOnFailure
            (some ledger.toPools)
            (ledger.admitPending transaction signingDomain transaction.jsonSize) ledger.toPools
              = .error error ledger.toPools := by
          simp only [restoringOnFailure, hadmitted]
        rw [after_bind_of_error (hrestored _)]
        exact hkept

/-- **Mempool eviction is sound.** Along every run the counters are exact and the pools keep their
limits.  A plan evicts whole packages that the candidate outbids, with all descendants and no
ancestor of the candidate, and leaves room for the candidate; without a plan a submission leaves
the pools as they were. -/
theorem mempool_eviction_sound {start : Ledger} (initial : Ledger.Initial start)
    {events : List MempoolEvent} (run : Runs.Run MempoolStep start events ledger) :
    (∀ candidate candidateBytes evicted, pendingEvictionPlan ledger.pending ledger.orphans candidate
        candidateBytes = .ok evicted →
      SoundPlan ledger.pending ledger.orphans candidate candidateBytes evicted)
    ∧ (∀ transaction error, ledger.toPools.pendingRoomRequired transaction.jsonSize = true →
      pendingEvictionPlan ledger.pending ledger.orphans transaction transaction.jsonSize
        = .error error →
      after (ledger.submitTransactionWithOutcome transaction) ledger.toPools = ledger.toPools
        ∨ ∃ utxos, ledger.utxosAfterValidPending = .ok utxos
          ∧ transactionHasMissingInputs transaction utxos = true)
    ∧ ledger.toPools.Counted ledger.transactionV2Domain := by
  have counted : ledger.PoolsCounted := by
    refine run.invariant Ledger.PoolsCounted ?_ (Ledger.initial_poolsCounted initial)
    intro before event left hbefore step
    exact mempoolStep_poolsCounted step hbefore
  exact ⟨fun candidate candidateBytes evicted h => pendingEvictionPlan_sound counted.distinct h,
    fun transaction error required noPlan => submission_without_plan required noPlan, counted⟩

end Runs

namespace Toy

attribute [local instance] crypto

/-- The genesis ledger after the submission of a mine action. -/
def submittedLedger : Ledger := genesis.submitIgnoringErrors fun ledger =>
  ledger.submitTransactionWithOutcome (minedCoin 0)

lemma submittedLedger_run :
    Runs.Run MempoolStep genesis [.submitted (minedCoin 0)] submittedLedger :=
  .cons (.submitted (minedCoin 0)) (.nil _)

/-- The pools after one submission. -/
theorem submittedLedger_sound :
    (∀ candidate candidateBytes evicted, pendingEvictionPlan submittedLedger.pending
        submittedLedger.orphans candidate candidateBytes = .ok evicted →
      SoundPlan submittedLedger.pending submittedLedger.orphans candidate candidateBytes evicted)
    ∧ (∀ transaction error,
      submittedLedger.toPools.pendingRoomRequired transaction.jsonSize = true →
      pendingEvictionPlan submittedLedger.pending submittedLedger.orphans transaction
        transaction.jsonSize = .error error →
      after (submittedLedger.submitTransactionWithOutcome transaction) submittedLedger.toPools
          = submittedLedger.toPools
        ∨ ∃ utxos, submittedLedger.utxosAfterValidPending = .ok utxos
          ∧ transactionHasMissingInputs transaction utxos = true)
    ∧ submittedLedger.toPools.Counted submittedLedger.transactionV2Domain :=
  mempool_eviction_sound genesis_initial submittedLedger_run

end Toy

end Iuna
