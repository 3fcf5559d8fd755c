import Iuna.Properties.MempoolLimits

/-!
# The limits that both pools share

The pools of legacy and of v2 transactions share one limit on their number and one on their bytes.
The v2 path asks for room in both; the legacy path and the promotion of orphans look at the legacy
pool and at the constants of the protocol only.  Along a run the shared limits hold as long as
everything that waits when a legacy transaction comes in, or a block is applied, fits in them
together, or only legacy transactions wait and the profile allows as many as the constants do
(`shared_limits`).
-/

namespace Mutate

lemma after_bind_pure {ε σ α β : Type} (x : Mutate ε σ α) (b : β) (s : σ) :
    after (x >>= fun _ => pure b) s = after x s := by
  cases hx : x s with
  | ok a left => rw [after_bind_of_ok hx, after_of_ok hx, after_pure]
  | error e left => rw [after_bind_of_error hx, after_of_error hx]

/-- A step from one state, and a continuation that preserves what the step has reached. -/
lemma holds_bind {ε σ α β : Type} {I : σ → Prop} {x : Mutate ε σ α} {f : α → Mutate ε σ β} {s : σ}
    (hx : I (after x s)) (hf : ∀ a, Preserves I (f a)) : I (after (x >>= f) s) := by
  cases hxs : x s with
  | ok a left =>
    rw [after_bind_of_ok hxs]
    exact hf a left (after_of_ok hxs ▸ hx)
  | error e left =>
    rw [after_bind_of_error hxs]
    exact after_of_error hxs ▸ hx

lemma after_set_bind {ε σ β : Type} {r s : σ} {f : PUnit → Mutate ε σ β} :
    after ((set r : Mutate ε σ PUnit) >>= f) s = after (f ⟨⟩) r := rfl

lemma after_zoom {ε σ ρ α : Type} {get : ρ → σ} {set : ρ → σ → ρ} (x : Mutate ε σ α) (r : ρ) :
    after (zoom get set x) r = set r (after x (get r)) := by
  cases hx : x (get r) with
  | ok a s => simp only [after, zoom, hx]
  | error e s => simp only [after, zoom, hx]

end Mutate

namespace Iuna

open Mutate

/-- The limits that the two pools share. -/
structure Pools.Shared (profile : LaunchProfile) (pools : Pools) : Prop where
  count : pools.pending.length + pools.pendingV2.length ≤ profile.maxPendingTransactions
  bytes : pools.pendingBytes + pools.pendingV2Bytes ≤ maxPendingPoolBytes

/-- Everything that waits, and `more` transactions of `moreBytes` bytes, is within the limits. -/
structure Pools.Fits (profile : LaunchProfile) (more moreBytes : ℕ) (pools : Pools) : Prop where
  count : pools.pending.length + pools.orphans.length + pools.pendingV2.length + more
    ≤ profile.maxPendingTransactions
  bytes : pools.pendingBytes + pools.orphanBytes + pools.pendingV2Bytes + moreBytes
    ≤ maxPendingPoolBytes

/-- Only legacy transactions wait, and the profile allows as many as the legacy path does. -/
structure Pools.LegacyOnly (profile : LaunchProfile) (pools : Pools) : Prop where
  limit : maxPendingTransactions ≤ profile.maxPendingTransactions
  noV2 : pools.pendingV2 = []

/-- There is room for `more` legacy transactions of `moreBytes` bytes, whatever is promoted. -/
def Pools.Roomy (profile : LaunchProfile) (more moreBytes : ℕ) (pools : Pools) : Prop :=
  pools.Fits profile more moreBytes ∨ pools.LegacyOnly profile

section Shared

variable {profile : LaunchProfile} {domain : Result TransactionV2Domain} {pools smaller : Pools}
  {more moreBytes less lessBytes : ℕ}

lemma saturatingAdd_le (a b : ℕ) : saturatingAdd a b ≤ a + b := by
  unfold saturatingAdd
  omega

/-- Pools that have at most what others have keep the limits. -/
lemma Pools.Shared.mono (shared : pools.Shared profile)
    (pending : smaller.pending.length ≤ pools.pending.length)
    (pendingBytes : smaller.pendingBytes ≤ pools.pendingBytes)
    (pendingV2 : smaller.pendingV2.length ≤ pools.pendingV2.length)
    (pendingV2Bytes : smaller.pendingV2Bytes ≤ pools.pendingV2Bytes) : smaller.Shared profile := by
  have hcount := shared.count
  have hbytes := shared.bytes
  exact ⟨by omega, by omega⟩

lemma Pools.Fits.shared (fits : pools.Fits profile more moreBytes) : pools.Shared profile := by
  have hcount := fits.count
  have hbytes := fits.bytes
  exact ⟨by omega, by omega⟩

/-- Less room is left for what comes by what has been taken in. -/
lemma Pools.Fits.mono (fits : pools.Fits profile more moreBytes)
    (count : smaller.pending.length + smaller.orphans.length + smaller.pendingV2.length + less
      ≤ pools.pending.length + pools.orphans.length + pools.pendingV2.length + more)
    (bytes : smaller.pendingBytes + smaller.orphanBytes + smaller.pendingV2Bytes + lessBytes
      ≤ pools.pendingBytes + pools.orphanBytes + pools.pendingV2Bytes + moreBytes) :
    smaller.Fits profile less lessBytes :=
  ⟨count.trans fits.count, bytes.trans fits.bytes⟩

/-- The limits of the legacy path suffice where no v2 transaction waits. -/
lemma Pools.LegacyOnly.shared (legacyOnly : pools.LegacyOnly profile)
    (counted : pools.Counted domain) : pools.Shared profile := by
  have hv2 := counted.pendingV2Bytes
  rw [legacyOnly.noV2, List.map_nil, List.sum_nil] at hv2
  constructor
  · rw [legacyOnly.noV2, List.length_nil, Nat.add_zero]
    exact counted.pendingCount.trans legacyOnly.limit
  · rw [hv2, Nat.add_zero]
    exact counted.pendingLimit

/-- Counted pools with room for more. -/
def CountedRoomy (domain : Result TransactionV2Domain) (profile : LaunchProfile)
    (more moreBytes : ℕ) (pools : Pools) : Prop :=
  pools.Counted domain ∧ pools.Roomy profile more moreBytes

/-- Counted pools in which everything fits. -/
def CountedFits (domain : Result TransactionV2Domain) (profile : LaunchProfile)
    (more moreBytes : ℕ) (pools : Pools) : Prop :=
  pools.Counted domain ∧ pools.Fits profile more moreBytes

lemma CountedRoomy.shared (roomy : CountedRoomy domain profile more moreBytes pools) :
    pools.Shared profile := by
  rcases roomy.2 with fits | legacyOnly
  · exact fits.shared
  · exact legacyOnly.shared roomy.1

/-- No v2 transaction waits. -/
abbrev NoV2 : Pools → Prop := Pools.Within (fun _ => True) fun _ => False

lemma noV2_iff : NoV2 pools ↔ pools.pendingV2 = [] := by
  constructor
  · exact fun within => List.eq_nil_iff_forall_not_mem.mpr within.pendingV2
  · intro noV2
    exact ⟨fun _ _ => trivial, fun _ _ => trivial, by simp [noV2]⟩

/-- What keeps the counters, leaves an empty v2 pool empty and takes nothing in keeps the room. -/
lemma preserves_countedRoomy {α : Type} {x : Mutate Error Pools α}
    (counted : Preserves (Pools.Counted domain) x) (noV2 : Preserves NoV2 x)
    (fits : Preserves (CountedFits domain profile more moreBytes) x) :
    Preserves (CountedRoomy domain profile more moreBytes) x := by
  intro pools roomy
  refine ⟨counted pools roomy.1, ?_⟩
  rcases roomy.2 with hfits | legacyOnly
  · exact .inl (fits pools ⟨roomy.1, hfits⟩).2
  · exact .inr ⟨legacyOnly.limit, noV2_iff.mp (noV2 pools (noV2_iff.mpr legacyOnly.noV2))⟩

end Shared

namespace Ledger

variable [Crypto] {ledger : Ledger} {profile : LaunchProfile} {pools : Pools}
  {domain : Result TransactionV2Domain} {more moreBytes : ℕ}

/-! ## Admissions -/

/-- The checks of `submit_transaction_with_outcome` let the transaction go on to the pending
pool. -/
structure ReachesPending (ledger : Ledger) (transaction : Transaction) : Prop where
  unknown : ledger.hasTransaction transaction.signature = false
  terms : ledger.validateTransactionTerms transaction = .ok ()
  anchor : ledger.validateTransactionAnchorForPending transaction = .ok ()
  signature :
    transaction.verifySignature (ledger.transactionSigningDomainForPending transaction) = .ok ()
  fits : ensureTransactionFitsEmptyBlock ledger.compactBlockContext transaction
    ledger.launchProfile.maxBlockBytes = .ok ()
  mineAnchor : ledger.validateMineAnchorAvailable transaction = .ok ()
  unspent : ¬ (transactionInputsSpentBy transaction ledger.pending
    ∨ transactionInputsSpentBy transaction ledger.orphans
    ∨ ledger.transactionConflictsWithPendingV2 transaction)
  inputs : ∃ utxos, ledger.utxosAfterValidPending = .ok utxos
    ∧ ¬ transactionHasMissingInputs transaction utxos

/-- The v2 pool is left alone. -/
def SameV2 (pools other : Pools) : Prop :=
  other.pendingV2 = pools.pendingV2 ∧ other.pendingV2Bytes = pools.pendingV2Bytes

lemma promoteOrphanRounds_sameV2 (origin : Pools) (rounds : ℕ) :
    Preserves (SameV2 origin) (ledger.promoteOrphanRounds rounds) := by
  induction rounds with
  | zero => exact preserves_pure _
  | succ rounds ih =>
    refine preserves_get_bind fun pools same => ?_
    split
    · exact same
    · refine holds_lift_bind same fun utxos _ => ?_
      refine holds_lift_bind same fun promoted _ => ?_
      cases promoted with
      | none => exact same
      | some promoted => exact ih _ same

omit [Crypto] in
lemma refreshPendingPoolByteCounters_sameV2 (origin : Pools) :
    Preserves (SameV2 origin) refreshPendingPoolByteCounters := by
  refine preserves_get_bind fun pools same => ?_
  refine holds_lift_bind same fun pendingBytes _ => ?_
  exact holds_lift_bind (I := SameV2 origin) same fun orphanBytes _ => same

omit [Crypto] in
lemma makePendingRoom_sameV2 (origin : Pools) (candidate : Transaction) (candidateBytes : ℕ) :
    Preserves (SameV2 origin) (makePendingRoom candidate candidateBytes) := by
  refine preserves_get_bind fun pools same => ?_
  split
  · refine holds_lift_bind same fun evicted _ => ?_
    exact refreshPendingPoolByteCounters_sameV2 origin _ same
  · exact same

lemma promoteOrphanTransactions_sameV2 (origin : Pools) :
    Preserves (SameV2 origin) ledger.promoteOrphanTransactions :=
  preserves_get_bind fun _ same => promoteOrphanRounds_sameV2 origin _ _ same

lemma admitPending_sameV2 (origin : Pools) (transaction : Transaction)
    (signingDomain : TransactionSigningDomain) (candidateBytes : ℕ) :
    Preserves (SameV2 origin) (ledger.admitPending transaction signingDomain candidateBytes) := by
  refine preserves_bind (makePendingRoom_sameV2 origin _ _) fun _ => ?_
  refine preserves_get_bind fun pools same => ?_
  refine holds_lift_bind same fun utxos _ => ?_
  refine holds_lift_bind same fun _ _ => ?_
  refine holds_lift_bind same fun _ _ => ?_
  exact promoteOrphanTransactions_sameV2 origin _ same

/-- A promotion moves a transaction from one pool to the other. -/
lemma promoteOrphanRounds_fits (rounds : ℕ) :
    Preserves (CountedFits domain profile more moreBytes) (ledger.promoteOrphanRounds rounds) := by
  induction rounds with
  | zero => exact preserves_pure _
  | succ rounds ih =>
    refine preserves_get_bind fun pools both => ?_
    by_cases hfull : maxPendingTransactions ≤ pools.pending.length
    · rw [if_pos hfull]
      exact both
    · rw [if_neg hfull]
      refine holds_lift_bind both fun utxos _ => ?_
      refine holds_lift_bind both fun promoted hpromoted => ?_
      cases promoted with
      | none => exact both
      | some promoted =>
        obtain ⟨index, bytes⟩ := promoted
        obtain ⟨counted, fits⟩ := both
        obtain ⟨orphan, hmem, rfl, hroom, -⟩ := findPromotedOrphan_spec hpromoted
        have hget := List.mem_zipIdx_iff_getElem?.mp hmem
        obtain ⟨hindex, horphan⟩ := List.getElem?_eq_some_iff.mp hget
        have hsizes := sum_map_eraseIdx Transaction.jsonSize hindex
        rw [horphan, ← counted.orphanBytes] at hsizes
        dsimp only at hsizes
        have hadd := saturatingAdd_le pools.pendingBytes orphan.jsonSize
        refine ih _ ⟨counted.promote hget (not_le.mp hfull) hroom, fits.mono ?_ ?_⟩
        · simp only [hget, Option.toList_some, List.length_append, List.length_singleton,
            List.length_eraseIdx_of_lt hindex]
          omega
        · dsimp only
          omega

lemma promoteOrphanTransactions_fits :
    Preserves (CountedFits domain profile more moreBytes) ledger.promoteOrphanTransactions :=
  preserves_get_bind fun _ both => promoteOrphanRounds_fits _ _ both

omit [Crypto] in
lemma jsonSize_le_of_sublist {left pending : List Transaction} (kept : left.Sublist pending) :
    (left.map Transaction.jsonSize).sum ≤ (pending.map Transaction.jsonSize).sum :=
  (kept.map Transaction.jsonSize).sum_le_sum fun _ _ => Nat.zero_le _

/-- An admission takes in one transaction. -/
lemma admitPending_fits {transaction : Transaction} (counted : pools.Counted domain)
    (fits : pools.Fits profile (more + 1) (moreBytes + transaction.jsonSize))
    (isNew : transaction.signature ∉ (pools.pending ++ pools.orphans).map Transaction.signature)
    (signingDomain : TransactionSigningDomain) :
    (after (ledger.admitPending transaction signingDomain transaction.jsonSize) pools).Fits
      profile more moreBytes := by
  unfold admitPending
  rcases makePendingRoom_cases counted transaction transaction.jsonSize with
    ⟨e, hfailed⟩ | ⟨left, hroom, hleft, hpending, horphans, hcount, hbytes⟩
  · rw [after_bind_of_error hfailed]
    exact fits.mono (by omega) (by omega)
  · obtain ⟨hsame, hsameBytes⟩ := (makePendingRoom_sameV2 pools transaction
      transaction.jsonSize).of_ok hroom ⟨rfl, rfl⟩
    have hpendingBytes := jsonSize_le_of_sublist hpending
    have horphanBytes := jsonSize_le_of_sublist horphans
    rw [← hleft.pendingBytes, ← counted.pendingBytes] at hpendingBytes
    rw [← hleft.orphanBytes, ← counted.orphanBytes] at horphanBytes
    have hpendingCount := hpending.length_le
    have horphanCount := horphans.length_le
    have hkept : left.Fits profile (more + 1) (moreBytes + transaction.jsonSize) :=
      fits.mono (by rw [hsame]; omega) (by omega)
    rw [after_bind_of_ok hroom]
    rw [after_get_bind]
    have hshort : left.Fits profile more moreBytes := hkept.mono (by omega) (by omega)
    refine holds_lift_bind hshort fun utxos _ => ?_
    refine holds_lift_bind hshort fun _ _ => ?_
    refine holds_lift_bind hshort fun _ _ => ?_
    have hnew : transaction.signature
        ∉ (left.pending ++ left.orphans).map Transaction.signature := fun hmem =>
      isNew (((hpending.append horphans).map _).subset hmem)
    have hadd := saturatingAdd_le left.pendingBytes transaction.jsonSize
    have promotes : Preserves (CountedFits domain profile more moreBytes)
        ledger.promoteOrphanTransactions := promoteOrphanTransactions_fits
    refine (promotes _ ⟨hleft.push hnew hcount hbytes, hkept.mono ?_ ?_⟩).2
    · simp only [List.length_append, List.length_singleton]
      omega
    · dsimp only
      omega

/-! ## Submissions -/

/-- The pools after a transaction has joined the orphans. -/
def orphaned (transaction : Transaction) (pools : Pools) : Pools :=
  { pools with
    orphans := pools.orphans ++ [transaction]
    orphanBytes := saturatingAdd pools.orphanBytes transaction.jsonSize }

omit [Crypto] in
/-- A failed admission is undone where room had to be made. -/
lemma after_restoringOnFailure {α : Type} {backup : Option Pools} {x : Mutate Error Pools α}
    (saved : ∀ other, backup = some other → other = pools) (same : SameV2 pools (after x pools)) :
    after (restoringOnFailure backup x) pools = pools
      ∨ after (restoringOnFailure backup x) pools = after x pools := by
  cases hx : x pools with
  | ok a left =>
    refine .inr ?_
    simp only [after, restoringOnFailure, hx]
  | error e left =>
    rw [after_of_error hx] at same
    cases backup with
    | none =>
      refine .inr ?_
      simp only [after, restoringOnFailure, hx]
    | some other =>
      obtain rfl := saved other rfl
      refine .inl ?_
      simp only [after, restoringOnFailure, hx, same.1, same.2]

/-- What a legacy submission can do: nothing, add an orphan, or admit the transaction. -/
lemma submitTransactionWithOutcome_cases (ledger : Ledger) (transaction : Transaction) :
    let left := after (ledger.submitTransactionWithOutcome transaction) ledger.toPools
    left = ledger.toPools ∨ left = orphaned transaction ledger.toPools
      ∨ ledger.ReachesPending transaction ∧ left = after (ledger.admitPending transaction
        (ledger.transactionSigningDomainForPending transaction) transaction.jsonSize)
        ledger.toPools := by
  let Known (left : Pools) : Prop :=
    left = ledger.toPools ∨ left = orphaned transaction ledger.toPools
      ∨ ledger.ReachesPending transaction ∧ left = after (ledger.admitPending transaction
        (ledger.transactionSigningDomainForPending transaction) transaction.jsonSize)
        ledger.toPools
  have same : Known ledger.toPools := .inl rfl
  suffices h : Known (after (ledger.submitTransactionWithOutcome transaction) ledger.toPools) from h
  unfold submitTransactionWithOutcome
  rw [after_get_bind]
  dsimp only
  split
  · exact same
  · rename_i unknown
    refine holds_lift_bind same fun _ terms => ?_
    refine holds_lift_bind same fun _ anchor => ?_
    refine holds_lift_bind same fun _ signature => ?_
    refine holds_lift_bind same fun _ fits => ?_
    refine holds_lift_bind same fun _ mineAnchor => ?_
    split
    · exact same
    · rename_i unspent
      refine holds_lift_bind same fun utxos hutxos => ?_
      split
      · refine holds_lift_bind same fun _ _ => ?_
        refine holds_lift_bind same fun _ _ => ?_
        exact holds_lift_bind same fun _ _ => .inr (.inl rfl)
      · rename_i hpresent
        refine holds_lift_bind same fun _ _ => ?_
        have hreaches : ledger.ReachesPending transaction :=
          ⟨Bool.eq_false_of_not_eq_true unknown, terms, anchor, signature, fits, mineAnchor, unspent,
            utxos, hutxos, hpresent⟩
        let backup := if ledger.toPools.pendingRoomRequired transaction.jsonSize then
          some ledger.toPools else none
        have hsaved : ∀ other, backup = some other → other = ledger.toPools := by
          intro other hother
          dsimp only [backup] at hother
          split at hother
          · exact (Option.some.inj hother).symm
          · cases hother
        show Known (after (restoringOnFailure backup (ledger.admitPending transaction
          (ledger.transactionSigningDomainForPending transaction) transaction.jsonSize) >>= fun _ =>
            pure TransactionSubmitOutcome.added) ledger.toPools)
        rw [after_bind_pure]
        rcases after_restoringOnFailure hsaved (admitPending_sameV2 ledger.toPools _ _ _ _
          ⟨rfl, rfl⟩) with hrestored | hadmitted
        · exact .inl hrestored
        · exact .inr (.inr ⟨hreaches, hadmitted⟩)

/-- A legacy submission takes up the room of one transaction. -/
lemma submission_roomy {transaction : Transaction} (roomy : CountedRoomy domain profile (more + 1)
    (moreBytes + transaction.jsonSize) ledger.toPools) :
    CountedRoomy domain profile more moreBytes
      (after (ledger.submitTransactionWithOutcome transaction) ledger.toPools) := by
  obtain ⟨counted, fits | legacyOnly⟩ := roomy
  · refine ⟨submitTransactionWithOutcome_counted transaction _ counted, .inl ?_⟩
    rcases submitTransactionWithOutcome_cases ledger transaction with
      hsame | horphaned | ⟨reaches, hadmitted⟩
    · rw [hsame]
      exact fits.mono (by omega) (by omega)
    · have hadd := saturatingAdd_le ledger.toPools.orphanBytes transaction.jsonSize
      rw [horphaned]
      refine fits.mono ?_ ?_
      · simp only [orphaned, List.length_append, List.length_singleton]
        omega
      · simp only [orphaned]
        omega
    · rw [hadmitted]
      have isNew : ¬ (withPools ledger ledger.toPools).hasTransaction transaction.signature := by
        simp [withPools, reaches.unknown]
      exact admitPending_fits counted fits (notWaiting_of_not_hasTransaction isNew) _
  · refine ⟨submitTransactionWithOutcome_counted transaction _ counted,
      .inr ⟨legacyOnly.limit, ?_⟩⟩
    exact noV2_iff.mp (submitTransactionWithOutcome_within ledger trivial _
      (noV2_iff.mpr legacyOnly.noV2))

/-- A legacy submission keeps the shared limits if there is room where it gets as far as the
pending pool. -/
lemma submitTransactionWithOutcome_shared {transaction : Transaction}
    (counted : ledger.toPools.Counted domain) (shared : ledger.toPools.Shared profile)
    (room : ledger.ReachesPending transaction →
      ledger.toPools.Roomy profile 1 transaction.jsonSize) :
    (after (ledger.submitTransactionWithOutcome transaction) ledger.toPools).Shared profile := by
  by_cases reaches : ledger.ReachesPending transaction
  · have hroom := room reaches
    rw [← Nat.zero_add 1, ← Nat.zero_add transaction.jsonSize] at hroom
    exact (submission_roomy ⟨counted, hroom⟩).shared
  · rcases submitTransactionWithOutcome_cases ledger transaction with
      hsame | horphaned | ⟨hreaches, -⟩
    · rw [hsame]
      exact shared
    · rw [horphaned]
      exact shared.mono le_rfl le_rfl le_rfl le_rfl
    · exact absurd hreaches reaches

omit [Crypto] in
/-- The end of a v2 submission appends the transaction where there is room. -/
lemma appendV2_shared (transaction : TransactionV2) {length : ℕ} (shared : pools.Shared profile)
    (hfew : pools.pending.length + pools.pendingV2.length < profile.maxPendingTransactions)
    (hbelow : saturatingAdd pools.pendingBytes pools.pendingV2Bytes + length
      ≤ maxPendingPoolBytes) (applied : Result (Unit × Utxos)) :
    (after (do
      let (_, _) ← (liftM applied : Mutate Error Pools (Unit × Utxos))
      modify fun pools => { pools with
        pendingV2 := pools.pendingV2 ++ [transaction]
        pendingV2Bytes := saturatingAdd pools.pendingV2Bytes length }
      pure TransactionSubmitOutcome.added) pools).Shared profile := by
  refine holds_lift_bind shared fun _ _ => ?_
  have hlimit : maxPendingPoolBytes < u64Max := by decide
  have hv2 := saturatingAdd_le pools.pendingV2Bytes length
  have hboth : saturatingAdd pools.pendingBytes pools.pendingV2Bytes
      = pools.pendingBytes + pools.pendingV2Bytes := by
    have := shared.bytes
    unfold saturatingAdd
    omega
  rw [hboth] at hbelow
  constructor
  · show pools.pending.length + (pools.pendingV2 ++ [transaction]).length
      ≤ profile.maxPendingTransactions
    rw [List.length_append, List.length_singleton]
    exact hfew
  · show pools.pendingBytes + saturatingAdd pools.pendingV2Bytes length ≤ maxPendingPoolBytes
    omega

/-- The v2 path asks for room itself. -/
lemma submitTransactionV2_shared (transaction : TransactionV2)
    (shared : pools.Shared ledger.launchProfile) :
    (after (ledger.submitTransactionV2 transaction) pools).Shared ledger.launchProfile := by
  unfold submitTransactionV2
  rw [after_get_bind]
  dsimp only
  refine holds_lift_bind shared fun _ _ => ?_
  refine holds_lift_bind shared fun _ _ => ?_
  refine holds_lift_bind shared fun _ _ => ?_
  refine holds_lift_bind shared fun domain _ => ?_
  refine holds_lift_bind shared fun transactionId _ => ?_
  split
  · exact shared
  · refine holds_lift_bind shared fun _ _ => ?_
    refine holds_lift_bind shared fun encoded _ => ?_
    refine holds_lift_bind shared fun _ _ => ?_
    refine holds_lift_bind shared fun _ hcount => ?_
    refine holds_lift_bind shared fun _ hbytes => ?_
    refine holds_lift_bind shared fun utxos _ => ?_
    have hfew := not_le.mp (Outcome.bailIf_eq_ok.mp hcount)
    have hbelow := not_lt.mp (Outcome.bailIf_eq_ok.mp hbytes)
    have hadd := appendV2_shared transaction shared hfew hbelow
      (outcome (applyTransactionV2ToUtxos transaction domain (ledger.withPools pools).network) utxos)
    split
    · split
      · exact holds_lift_bind shared fun _ _ => hadd
      · exact hadd
    · exact hadd

/-! ## Blocks -/

/-- The pools of legacy transactions are left alone. -/
def SameLegacy (pools other : Pools) : Prop :=
  other.pending = pools.pending ∧ other.pendingBytes = pools.pendingBytes
    ∧ other.orphans = pools.orphans ∧ other.orphanBytes = pools.orphanBytes

/-- The v2 pool that is rebuilt takes no more than it has given up. -/
lemma revalidatePendingV2Loop_bounds {domain : TransactionV2Domain}
    (hdomain : ledger.transactionV2Domain = .ok domain) (height : ℕ)
    (transactions : List TransactionV2) (utxos : Utxos) (pools : Pools) :
    let left := after (ledger.revalidatePendingV2Loop domain height transactions utxos) pools
    SameLegacy pools left
      ∧ left.pendingV2.length ≤ pools.pendingV2.length + transactions.length
      ∧ left.pendingV2Bytes ≤ pools.pendingV2Bytes
        + (transactions.map (TransactionV2.encodedLen ledger.transactionV2Domain)).sum := by
  induction transactions generalizing utxos pools with
  | nil => exact ⟨⟨rfl, rfl, rfl, rfl⟩, le_rfl, le_rfl⟩
  | cons transaction rest ih =>
    let Bounded (left : Pools) : Prop :=
      SameLegacy pools left
        ∧ left.pendingV2.length ≤ pools.pendingV2.length + (transaction :: rest).length
        ∧ left.pendingV2Bytes ≤ pools.pendingV2Bytes
          + ((transaction :: rest).map (TransactionV2.encodedLen ledger.transactionV2Domain)).sum
    have hstart : Bounded pools :=
      ⟨⟨rfl, rfl, rfl, rfl⟩, Nat.le_add_right _ _, Nat.le_add_right _ _⟩
    suffices h : Bounded (after (ledger.revalidatePendingV2Loop domain height
      (transaction :: rest) utxos) pools) from h
    unfold revalidatePendingV2Loop
    refine holds_lift_bind hstart fun encoded hencoded => ?_
    have hlen : transaction.encodedLen ledger.transactionV2Domain = encoded.length := by
      have hboth : (ledger.transactionV2Domain >>= transaction.encode) = .ok encoded :=
        Outcome.bind_eq_ok.mpr ⟨domain, hdomain, hencoded⟩
      simp only [TransactionV2.encodedLen, hboth]
    split
    rename_i candidateUtxos _
    split
    · obtain ⟨hlegacy, hcount, hv2⟩ := ih candidateUtxos { pools with
        pendingV2 := pools.pendingV2 ++ [transaction]
        pendingV2Bytes := saturatingAdd pools.pendingV2Bytes encoded.length }
      have hadd := saturatingAdd_le pools.pendingV2Bytes encoded.length
      refine ⟨hlegacy, ?_, ?_⟩
      · simp only [List.length_append, List.length_singleton] at hcount
        rw [List.length_cons]
        exact hcount.trans (by omega)
      · rw [List.map_cons, List.sum_cons, hlen]
        exact hv2.trans (by dsimp only; omega)
    · obtain ⟨hlegacy, hcount, hv2⟩ := ih utxos pools
      refine ⟨hlegacy, ?_, ?_⟩
      · rw [List.length_cons]
        exact hcount.trans (by omega)
      · rw [List.map_cons, List.sum_cons]
        exact hv2.trans (by omega)

lemma revalidatePendingV2_fits :
    Preserves (CountedFits ledger.transactionV2Domain profile more moreBytes)
      ledger.revalidatePendingV2 := by
  intro pools both
  refine ⟨revalidatePendingV2_counted pools both.1, ?_⟩
  obtain ⟨counted, fits⟩ := both
  unfold revalidatePendingV2
  dsimp only
  split
  · refine fits.mono ?_ ?_
    · show pools.pending.length + pools.orphans.length + 0 + more ≤ _
      omega
    · show pools.pendingBytes + pools.orphanBytes + 0 + moreBytes ≤ _
      omega
  · refine holds_lift_bind fits fun domain hdomain => ?_
    rw [after_get_bind]
    obtain ⟨⟨hpending, hbytes, horphans, horphanBytes⟩, hcount, hv2⟩ :=
      revalidatePendingV2Loop_bounds hdomain
        (saturatingAdd ledger.height 1) pools.pendingV2
        (ledger.withPools pools).utxosAfterSpendablePending
        { pools with pendingV2 := [], pendingV2Bytes := 0 }
    dsimp only at hpending hbytes horphans horphanBytes hcount hv2
    rw [List.length_nil, Nat.zero_add] at hcount
    rw [Nat.zero_add, ← counted.pendingV2Bytes] at hv2
    show (after (ledger.revalidatePendingV2Loop domain (saturatingAdd ledger.height 1)
      pools.pendingV2 (ledger.withPools pools).utxosAfterSpendablePending)
      { pools with pendingV2 := [], pendingV2Bytes := 0 }).Fits profile more moreBytes
    refine fits.mono ?_ ?_
    · rw [hpending, horphans]
      omega
    · rw [hbytes, horphanBytes]
      omega

lemma refreshPools_fits (minedSignatures : List Str) :
    Preserves (CountedFits ledger.transactionV2Domain profile more moreBytes)
      (ledger.refreshPools minedSignatures) := by
  intro pools both
  obtain ⟨counted, fits⟩ := both
  obtain ⟨left, hrecount, hleft, hpending, horphans⟩ := counted.recount
    (fun transaction => transactionInputsAvailable transaction ledger.utxos
      ∧ ledger.survivesBlock minedSignatures transaction)
    (ledger.survivesBlock minedSignatures)
  obtain ⟨hv2, hv2Bytes⟩ := (refreshPendingPoolByteCounters_sameV2 pools).of_ok hrecount ⟨rfl, rfl⟩
  have hkept : left.pending.Sublist pools.pending := hpending ▸ List.filter_sublist
  have hkeptOrphans : left.orphans.Sublist pools.orphans := horphans ▸ List.filter_sublist
  have hpendingCount := hkept.length_le
  have horphanCount := hkeptOrphans.length_le
  have hpendingBytes := jsonSize_le_of_sublist hkept
  have horphanBytes := jsonSize_le_of_sublist hkeptOrphans
  rw [← hleft.pendingBytes, ← counted.pendingBytes] at hpendingBytes
  rw [← hleft.orphanBytes, ← counted.orphanBytes] at horphanBytes
  unfold refreshPools
  have hfilter : after (modify (fun pools : Pools => { pools with
      pending := pools.pending.filter fun transaction =>
        transactionInputsAvailable transaction ledger.utxos
          ∧ ledger.survivesBlock minedSignatures transaction
      orphans := pools.orphans.filter (ledger.survivesBlock minedSignatures) }) >>= fun _ => do
    refreshPendingPoolByteCounters
    ledger.promoteOrphanTransactions
    ledger.revalidatePendingV2) pools = after (do
      ledger.promoteOrphanTransactions
      ledger.revalidatePendingV2) left := after_bind_of_ok hrecount
  rw [hfilter]
  exact preserves_bind promoteOrphanTransactions_fits (fun _ => revalidatePendingV2_fits) left
    ⟨hleft, fits.mono (by rw [hv2]; omega) (by omega)⟩

/-- The pools of a ledger are counted and keep the limits of its profile. -/
def PoolsShared (ledger : Ledger) : Prop :=
  ledger.PoolsCounted ∧ ledger.toPools.Shared ledger.launchProfile

/-- The pools of a ledger are counted and have room under its profile. -/
def PoolsRoomy (more moreBytes : ℕ) (ledger : Ledger) : Prop :=
  CountedRoomy ledger.transactionV2Domain ledger.launchProfile more moreBytes ledger.toPools

omit [Crypto] in
lemma PoolsRoomy.shared (roomy : PoolsRoomy more moreBytes ledger) : ledger.PoolsShared :=
  ⟨roomy.1, CountedRoomy.shared roomy⟩

/-- A block takes nothing in: what joins the pending pool waited among the orphans. -/
lemma applyBlock_roomy (block : Block) (verifyVdf : Bool) (nowMs : ℕ) :
    Preserves (PoolsRoomy more moreBytes) (applyBlockWithVdfPolicy block verifyVdf nowMs) := by
  refine preserves_get_bind fun ledger roomy => ?_
  refine preserves_bind (preserves_lift _) (fun isNew => ?_) ledger roomy
  refine preserves_ite ?_ (preserves_pure _)
  refine preserves_bind (preserves_lift _) fun _ => ?_
  refine preserves_bind (preserves_lift _) fun effects => ?_
  refine preserves_bind (preserves_lift _) fun context => ?_
  have hrecord : PoolsRoomy more moreBytes (ledger.recordBlock block effects context) := by
    obtain ⟨hpools, hdomain⟩ := recordBlock_domain ledger block effects context
    have hprofile : (ledger.recordBlock block effects context).launchProfile
        = ledger.launchProfile := by
      obtain ⟨_, _, _, _, hrecord⟩ := recordBlock_eq ledger block effects context
      rw [hrecord]
      rfl
    rw [PoolsRoomy, hpools, hdomain, hprofile]
    exact roomy
  refine preserves_bind (preserves_set hrecord) fun _ => ?_
  refine preserves_get_bind fun recorded hrecorded => ?_
  refine holds_bind ?_ fun _ => preserves_modify fun _ h => h
  rw [after_zoom]
  exact preserves_countedRoomy (refreshPools_counted _) (recorded.refreshPools_within _)
    (refreshPools_fits _) recorded.toPools hrecorded

/-- An application that does not reach its commit changes nothing. -/
lemma applyBlock_unchanged {block : Block} {verifyVdf : Bool} {nowMs : ℕ}
    (stops : ¬ ledger.ReachesCommit block verifyVdf nowMs) :
    after (applyBlockWithVdfPolicy block verifyVdf nowMs) ledger = ledger := by
  let Same (left : Ledger) : Prop := left = ledger
  suffices h : Same (after (applyBlockWithVdfPolicy block verifyVdf nowMs) ledger) from h
  have same : Same ledger := rfl
  unfold applyBlockWithVdfPolicy
  rw [after_get_bind]
  refine holds_lift_bind same fun isNew hnew => ?_
  split
  · rename_i hisNew
    refine holds_lift_bind same fun _ hvdf => ?_
    refine holds_lift_bind same fun effects heffects => ?_
    refine holds_lift_bind same fun context hcontext => ?_
    refine absurd ⟨hisNew ▸ hnew, ?_, ?_, ?_⟩ stops
    · intro hverify
      by_contra hinvalid
      exact Outcome.bailIf_eq_ok.mp hvdf ⟨hverify, Bool.eq_false_of_not_eq_true hinvalid⟩
    · rw [show ledger.stageBlock block = .ok effects from heffects]
      rfl
    · rw [show ledger.compactBlockContext.appendBlock block = .ok context from hcontext]
      rfl
  · exact same

lemma applyBlock_poolsShared {block : Block} {verifyVdf : Bool} {nowMs : ℕ}
    (shared : ledger.PoolsShared) (room : ledger.ReachesCommit block verifyVdf nowMs →
      ledger.toPools.Roomy ledger.launchProfile 0 0) :
    (after (applyBlockWithVdfPolicy block verifyVdf nowMs) ledger).PoolsShared := by
  by_cases reaches : ledger.ReachesCommit block verifyVdf nowMs
  · exact PoolsRoomy.shared (applyBlock_roomy block verifyVdf nowMs ledger
      ⟨shared.1, room reaches⟩)
  · rw [applyBlock_unchanged reaches]
    exact shared

/-! ## Ledgers that are rebuilt -/

/-- Nothing waits. -/
abbrev Bare : Pools → Prop := Pools.Within (fun _ => False) fun _ => False

omit [Crypto] in
lemma Bare.roomy (bare : Bare pools) (counted : pools.Counted domain)
    (room : Pools.empty.Roomy profile more moreBytes) :
    CountedRoomy domain profile more moreBytes pools := by
  have hpending := List.eq_nil_iff_forall_not_mem.mpr bare.pending
  have horphans := List.eq_nil_iff_forall_not_mem.mpr bare.orphans
  have hv2 := List.eq_nil_iff_forall_not_mem.mpr bare.pendingV2
  refine ⟨counted, room.imp (fun fits => fits.mono ?_ ?_) fun legacyOnly =>
    ⟨legacyOnly.limit, hv2⟩⟩
  · rw [hpending, horphans, hv2]
    exact le_rfl
  · rw [counted.pendingBytes, counted.orphanBytes, counted.pendingV2Bytes, hpending, horphans, hv2]
    exact le_rfl

lemma initial_poolsShared (initial : Initial ledger) : ledger.PoolsShared := by
  refine ⟨initial_poolsCounted initial, ?_⟩
  obtain ⟨_, _, _, _, _, _, _, _, -, -, -, -, rfl⟩ := initial_eq initial
  exact ⟨Nat.zero_le _, Nat.zero_le _⟩

/-! ## Reorganizations -/

/-- What a node carries over when it gives up some blocks. -/
def carriedOver (ledger : Ledger) (staleBlocks : List Block) : List Transaction :=
  ledger.pending ++ ledger.orphans ++ staleBlocks.flatMap Block.transactions

/-- There is room for what a node carries over in pools in which nothing waits. -/
def CarriesOver (ledger : Ledger) (profile : LaunchProfile) (staleBlocks : List Block) : Prop :=
  Pools.empty.Roomy profile (ledger.carriedOver staleBlocks).length
    ((ledger.carriedOver staleBlocks).map Transaction.jsonSize).sum

omit [Crypto] in
lemma submitIgnoringErrors_holds {α : Type} {I : Result TransactionV2Domain → LaunchProfile →
    Pools → Prop} {submit : Ledger → Mutate Error Pools α}
    (holds : I ledger.transactionV2Domain ledger.launchProfile
      (after (submit ledger) ledger.toPools)) :
    I (ledger.submitIgnoringErrors submit).transactionV2Domain
      (ledger.submitIgnoringErrors submit).launchProfile
      (ledger.submitIgnoringErrors submit).toPools := by
  unfold submitIgnoringErrors
  cases hrun : submit ledger ledger.toPools with
  | ok a pools => exact after_of_ok hrun ▸ holds
  | error e pools => exact after_of_error hrun ▸ holds

lemma submission_poolsShared (transaction : Transaction) (shared : ledger.PoolsShared)
    (room : ledger.ReachesPending transaction →
      ledger.toPools.Roomy ledger.launchProfile 1 transaction.jsonSize) :
    (ledger.submitIgnoringErrors fun ledger =>
      ledger.submitTransactionWithOutcome transaction).PoolsShared :=
  submitIgnoringErrors_holds (I := fun domain profile pools =>
      pools.Counted domain ∧ pools.Shared profile)
    ⟨submitTransactionWithOutcome_counted transaction _ shared.1,
      submitTransactionWithOutcome_shared shared.1 shared.2 room⟩

lemma submissionV2_poolsShared (transaction : TransactionV2) (shared : ledger.PoolsShared) :
    (ledger.submitIgnoringErrors fun ledger =>
      ledger.submitTransactionV2 transaction).PoolsShared :=
  submitIgnoringErrors_holds (I := fun domain profile pools =>
      pools.Counted domain ∧ pools.Shared profile)
    ⟨submitTransactionV2_counted transaction _ shared.1,
      submitTransactionV2_shared transaction shared.2⟩

/-- Submissions take up the room of what is submitted. -/
lemma submissions_roomy {transactions : List Transaction}
    (roomy : PoolsRoomy transactions.length (transactions.map Transaction.jsonSize).sum ledger) :
    PoolsRoomy 0 0 (transactions.foldl (fun candidate transaction =>
      candidate.submitIgnoringErrors fun ledger =>
        ledger.submitTransactionWithOutcome transaction) ledger) := by
  induction transactions generalizing ledger with
  | nil => exact roomy
  | cons transaction rest ih =>
    rw [List.length_cons, List.map_cons, List.sum_cons, Nat.add_comm transaction.jsonSize] at roomy
    exact ih (submitIgnoringErrors_holds (I := fun domain profile pools => CountedRoomy domain
      profile rest.length (rest.map Transaction.jsonSize).sum pools) (submission_roomy roomy))

lemma submissionsV2_poolsShared (transactions : List TransactionV2)
    (shared : ledger.PoolsShared) :
    (transactions.foldl (fun candidate transaction => candidate.submitIgnoringErrors fun ledger =>
      ledger.submitTransactionV2 transaction) ledger).PoolsShared := by
  induction transactions generalizing ledger with
  | nil => exact shared
  | cons transaction rest ih => exact ih (submissionV2_poolsShared transaction shared)

lemma replaceWithBetterChain_poolsShared {candidate : Ledger} {staleBlocks : List Block}
    (bare : Bare candidate.toPools) (counted : candidate.PoolsCounted)
    (room : ledger.CarriesOver candidate.launchProfile staleBlocks) :
    (ledger.replaceWithBetterChain candidate staleBlocks).PoolsShared := by
  refine submissionsV2_poolsShared _ (submissions_roomy ?_).shared
  -- what the candidate has mined already is not submitted again
  refine bare.roomy counted (room.imp (fun fits => fits.mono ?_ ?_) id)
  · exact Nat.add_le_add_left (List.length_filter_le _ _) _
  · exact Nat.add_le_add_left (jsonSize_le_of_sublist List.filter_sublist) _

/-- If a rebuilt chain is adopted, there is room for what is carried over to it. -/
def SnapshotHasRoom (snapshot : ChainSnapshot) (verifyVdf : Bool) (nowMs : ℕ) (ledger : Ledger) :
    Prop :=
  ∀ candidate ancestor, fromSnapshotWithVdfPolicy snapshot verifyVdf nowMs = .ok candidate →
    ledger.forkPointWithCandidate candidate = .ok ancestor →
    ledger.chooseFork candidate ancestor ≠ .keepLocal →
    ledger.CarriesOver candidate.launchProfile (ledger.forkBlocks ancestor)

lemma extendFromSnapshot_poolsShared {snapshot : ChainSnapshot} {verifyVdf : Bool} {nowMs : ℕ}
    {replaced : Bool} {ledger' : Ledger} (shared : ledger.PoolsShared)
    (extended : ledger.extendFromSnapshotWithVdfPolicy snapshot verifyVdf nowMs
      = .ok (replaced, ledger')) (room : SnapshotHasRoom snapshot verifyVdf nowMs ledger) :
    ledger'.PoolsShared := by
  simp only [extendFromSnapshotWithVdfPolicy, adoptCandidate, Outcome.bind_eq_ok] at extended
  obtain ⟨_, -, candidate, hcandidate, ancestor, hancestor, hadopted⟩ := extended
  split at hadopted
  · simp only [Outcome.pure_eq_ok, Prod.mk.injEq] at hadopted
    exact hadopted.2 ▸ shared
  · rename_i hchosen
    simp only [Outcome.pure_eq_ok, Prod.mk.injEq] at hadopted
    rw [← hadopted.2]
    exact replaceWithBetterChain_poolsShared (fromSnapshot_within hcandidate)
      (snapshot_poolsCounted hcandidate) (room candidate ancestor hcandidate hancestor hchosen)

/-- There is room for what a validated page brings into the pending pool: the orphans of the
ledger that it extends, or what is carried over to a fork. -/
def PageHasRoom (forkBase : Option PersistedForkBase) (blocks : List Block) (nowMs : ℕ)
    (ledger : Ledger) : Prop :=
  match blocks with
  | [] => True
  | first :: _ =>
    if first.prevHash = ledger.tip.hash then ledger.toPools.Roomy ledger.launchProfile 0 0
    else match forkBase with
      | some forkBase => ledger.CarriesOver ledger.launchProfile forkBase.localForkBlocks
      | none => ∀ ancestor,
        ledger.chain.findIdx? (fun block => block.hash = first.prevHash) = some ancestor →
        SnapshotHasRoom { ledger.snapshot with
          blocks := ledger.snapshot.blocks.take (ancestor + 1) ++ blocks } false nowMs ledger

lemma validateBlocksExtension_poolsShared {forkBase : Option PersistedForkBase}
    {blocks : List Block} {nowMs : ℕ} {validated : Ledger} (shared : ledger.PoolsShared)
    (h : validateBlocksExtension forkBase blocks nowMs ledger = .ok validated)
    (room : PageHasRoom forkBase blocks nowMs ledger) : validated.PoolsShared := by
  cases blocks with
  | nil =>
    simp only [validateBlocksExtension, Outcome.pure_eq_ok] at h
    exact h ▸ shared
  | cons first rest =>
    unfold validateBlocksExtension at h
    unfold PageHasRoom at room
    dsimp only at h room
    split at h
    · rename_i hextends
      rw [if_pos hextends] at room
      simp only [Outcome.bind_eq_ok, Outcome.pure_eq_ok] at h
      obtain ⟨extended, happlied, ⟨⟩, -, rfl⟩ := h
      simp only [applyPreverifiedBlocks, Outcome.bind_eq_ok, Mutate.outcome_eq_ok,
        Outcome.pure_eq_ok] at happlied
      obtain ⟨⟨_, left⟩, hblocks, rfl⟩ := happlied
      have hroomy : PoolsRoomy 0 0 ledger := ⟨shared.1, room⟩
      exact PoolsRoomy.shared ((preserves_forM fun block _ =>
        applyBlock_roomy block false nowMs).of_ok hblocks hroomy)
    · rename_i hforks
      rw [if_neg hforks] at room
      cases forkBase with
      | some known =>
        simp only [Outcome.bind_eq_ok, Outcome.pure_eq_ok] at h
        obtain ⟨_, -, candidate, happlied, ⟨⟩, -, ⟨replaced, adopted⟩, hadopted, rfl⟩ := h
        have hbase : known.ledger.PoolsCounted := by
          rw [PoolsCounted, known.rebuilt]
          exact counted_empty
        have hbare : Bare known.ledger.toPools := by
          rw [known.rebuilt]
          exact within_empty
        simp only [adoptPrevalidatedFork, orError, Outcome.bind_eq_ok,
          Outcome.ofOption_eq_ok] at hadopted
        obtain ⟨_, hidentity, ancestor, hancestor, _, -, _, -, hadopted⟩ := hadopted
        have hprofile : candidate.launchProfile = ledger.launchProfile := by
          by_contra hdiffers
          exact Outcome.bailIf_eq_ok.mp hidentity (.inr (.inl hdiffers))
        split at hadopted
        · simp only [Outcome.pure_eq_ok, Prod.mk.injEq] at hadopted
          exact hadopted.2 ▸ shared
        · simp only [Outcome.pure_eq_ok, Prod.mk.injEq] at hadopted
          rw [← hadopted.2]
          exact replaceWithBetterChain_poolsShared (applyPreverifiedBlocks_within happlied hbare)
            (applyPreverifiedBlocks_poolsCounted hbase happlied) (hprofile.symm ▸ room)
      | none =>
        simp only [orError, Outcome.bind_eq_ok, Outcome.pure_eq_ok, Outcome.ofOption_eq_ok] at h
        obtain ⟨position, hposition, ⟨replaced, extended⟩, hextended, ⟨⟩, -, rfl⟩ := h
        exact extendFromSnapshot_poolsShared shared hextended (room position hposition)

end Ledger

/-! ## Runs -/

/-- The events after which no legacy transaction has joined the pending pool. -/
def MempoolEvent.addsNoLegacy : MempoolEvent → Bool
  | submittedV2 _ | historyPruned _ | legacyDisplaced | v2Displaced | pendingCleared => true
  | _ => false

section Runs

variable [Crypto] {ledger ledger' : Ledger} {event : MempoolEvent}

/-- A change of the pools before which there is room for whatever may join the pending pool. -/
inductive RoomyStep : Ledger → MempoolEvent → Ledger → Prop
  | submitted {ledger : Ledger} (transaction : Transaction)
      (room : ledger.ReachesPending transaction →
        ledger.toPools.Roomy ledger.launchProfile 1 transaction.jsonSize) :
      RoomyStep ledger (.submitted transaction) (ledger.submitIgnoringErrors fun ledger =>
        ledger.submitTransactionWithOutcome transaction)
  | blockApplied {ledger : Ledger} (block : Block) (verifyVdf : Bool) (nowMs : ℕ)
      (room : ledger.ReachesCommit block verifyVdf nowMs →
        ledger.toPools.Roomy ledger.launchProfile 0 0) :
      RoomyStep ledger (.blockApplied block)
        (after (Ledger.applyBlockWithVdfPolicy block verifyVdf nowMs) ledger)
  | reorganized {ledger ledger' : Ledger} {snapshot : ChainSnapshot} {verifyVdf : Bool} {nowMs : ℕ}
      {replaced : Bool} (extended : ledger.extendFromSnapshotWithVdfPolicy snapshot verifyVdf nowMs
        = .ok (replaced, ledger')) (room : Ledger.SnapshotHasRoom snapshot verifyVdf nowMs ledger) :
      RoomyStep ledger (.reorganized snapshot) ledger'
  | pageValidated {ledger ledger' : Ledger} {forkBase : Option PersistedForkBase}
      {blocks : List Block} {nowMs : ℕ}
      (validated : validateBlocksExtension forkBase blocks nowMs ledger = .ok ledger')
      (room : Ledger.PageHasRoom forkBase blocks nowMs ledger) :
      RoomyStep ledger (.pageValidated blocks) ledger'
  | other {ledger ledger' : Ledger} {event : MempoolEvent}
      (step : MempoolStep ledger event ledger') (none_joins : event.addsNoLegacy = true) :
      RoomyStep ledger event ledger'

lemma RoomyStep.mempoolStep (step : RoomyStep ledger event ledger') :
    MempoolStep ledger event ledger' := by
  cases step with
  | submitted transaction => exact .submitted transaction
  | blockApplied block verifyVdf nowMs => exact .blockApplied block verifyVdf nowMs
  | reorganized extended => exact .reorganized extended
  | pageValidated validated => exact .pageValidated validated
  | other step => exact step

/-- Every step with room before it keeps the shared limits. -/
lemma RoomyStep.poolsShared (step : RoomyStep ledger event ledger')
    (shared : ledger.PoolsShared) : ledger'.PoolsShared := by
  have hcounted := mempoolStep_poolsCounted step.mempoolStep shared.1
  cases step with
  | submitted transaction room => exact Ledger.submission_poolsShared transaction shared room
  | blockApplied block verifyVdf nowMs room => exact Ledger.applyBlock_poolsShared shared room
  | reorganized extended room =>
    exact Ledger.extendFromSnapshot_poolsShared shared extended room
  | pageValidated validated room =>
    exact Ledger.validateBlocksExtension_poolsShared shared validated room
  | other step none_joins =>
    refine ⟨hcounted, ?_⟩
    cases step with
    | submitted | blockApplied | reorganized | pageValidated => cases none_joins
    | submittedV2 transaction => exact (Ledger.submissionV2_poolsShared transaction shared).2
    | historyPruned recentLimit =>
      have hpools : (ledger.retainRecentChainBlocks recentLimit).toPools = ledger.toPools := by
        unfold Ledger.retainRecentChainBlocks
        dsimp only
        split <;> rfl
      rw [hpools, Ledger.retainRecentChainBlocks_launchProfile]
      exact shared.2
    | legacyDisplaced => exact shared.2.mono (Nat.zero_le _) (Nat.zero_le _) le_rfl le_rfl
    | v2Displaced => exact shared.2.mono le_rfl le_rfl (Nat.zero_le _) (Nat.zero_le _)
    | pendingCleared =>
      exact shared.2.mono (Nat.zero_le _) (Nat.zero_le _) (Nat.zero_le _) (Nat.zero_le _)

/-- Both pools together are within the configured number of transactions and the byte limit. -/
def WithinSharedLimits (ledger : Ledger) : Prop :=
  ledger.pending.length + ledger.pendingV2.length ≤ ledger.launchProfile.maxPendingTransactions
    ∧ (ledger.pending.map Transaction.jsonSize).sum
      + (ledger.pendingV2.map (TransactionV2.encodedLen ledger.transactionV2Domain)).sum
        ≤ maxPendingPoolBytes

/-- **The shared limits.** In every run in which, before each step that can bring legacy
transactions into the pending pool, everything that waits and comes in fits in the limits together,
or only legacy transactions wait and the profile allows as many as the constants do, both pools
together are within the limits. -/
theorem shared_limits {start : Ledger} (initial : Ledger.Initial start)
    {events : List MempoolEvent} (run : Runs.Run RoomyStep start events ledger) :
    WithinSharedLimits ledger := by
  have shared : ledger.PoolsShared := by
    refine run.invariant Ledger.PoolsShared ?_ ?_
    · intro before event left hbefore step
      exact step.poolsShared hbefore
    · exact Ledger.initial_poolsShared initial
  obtain ⟨counted, hshared⟩ := shared
  refine ⟨hshared.count, ?_⟩
  unfold Ledger.PoolsCounted at counted
  rw [← counted.pendingBytes, ← counted.pendingV2Bytes]
  exact hshared.bytes

end Runs

/-! ## A profile with a smaller limit -/

namespace Toy

attribute [local instance] crypto

instance (ledger : Ledger) : Decidable (WithinSharedLimits ledger) :=
  inferInstanceAs (Decidable (_ ∧ _))

/-- A launch under a profile that allows one pending transaction. -/
def tightLaunch : Result Ledger := Ledger.newWithGenesisTransactions genesisAllocations [] 10
  { LaunchProfile.default with maxPendingTransactions := 1 }

set_option maxRecDepth 10000 in
lemma tightLaunch_isOk : tightLaunch.isOk = true := by decide +kernel

def tightGenesis : Ledger := Outcome.value tightLaunch tightLaunch_isOk

lemma tightGenesis_initial : Ledger.Initial tightGenesis :=
  .launch (Outcome.eq_ok_value tightLaunch tightLaunch_isOk)

/-- The one mine action that the profile allows. -/
def fullLedger : Ledger := tightGenesis.submitIgnoringErrors fun ledger =>
  ledger.submitTransactionWithOutcome (minedCoin 0)

/-- A pool that is full, and its step found room. -/
theorem fullLedger_withinSharedLimits :
    fullLedger.pending.length = fullLedger.launchProfile.maxPendingTransactions
      ∧ WithinSharedLimits fullLedger :=
  ⟨by decide +kernel, shared_limits tightGenesis_initial
    (.cons (.submitted (minedCoin 0) fun _ => .inl ⟨by decide +kernel, by decide +kernel⟩)
      (.nil _))⟩

/-- Two mine actions, one after the other. -/
def crowdedLedger : Ledger :=
  fullLedger.submitIgnoringErrors fun ledger => ledger.submitTransactionWithOutcome (minedCoin 1)

lemma crowdedLedger_run : Runs.Run MempoolStep tightGenesis
    [.submitted (minedCoin 0), .submitted (minedCoin 1)] crowdedLedger :=
  .cons (.submitted (minedCoin 0)) (.cons (.submitted (minedCoin 1)) (.nil _))

/-- Both mine actions are pending where the profile allows one transaction. -/
theorem shared_limits_exceeded : ∃ start events ledger, Ledger.Initial start
    ∧ Runs.Run MempoolStep start events ledger ∧ ¬ WithinSharedLimits ledger :=
  ⟨tightGenesis, _, crowdedLedger, tightGenesis_initial, crowdedLedger_run, by decide +kernel⟩

end Toy

end Iuna
