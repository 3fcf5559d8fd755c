import Iuna.Domain.Selection
import Iuna.Properties.Finality
import Iuna.Properties.MempoolLimits
import Iuna.Properties.NoReplay

/-!
# What a block selection is

A finalizer that builds a block from what `selectBlockTransactionsWithRequiredBurnOwner` returns
should not find it refused.  Every phase of the selection takes transactions out of the pools,
applies them one after the other to the outputs of the ledger and appends them to the block; it
never returns to a transaction.  `Packed` states this of a part of a run together with the order of
the applications, and the phases compose.  The results follow: the selected transactions are
pending ones, each selected once, they apply in the order of their selection, they fit in the
block, and no attested burn is missing.
-/

namespace Iuna

open Outcome

section Selection

variable [Crypto]

/-! ## Sets of ids -/

omit [Crypto] in
/-- A part of a set that is as large as the set is the whole set. -/
lemma mem_of_subset_of_size {small large : BTreeSet Str} (hsub : ∀ id ∈ small, id ∈ large)
    (hsize : small.size = large.size) {id : Str} (hid : id ∈ large) : id ∈ small := by
  have hnodup : small.keys.Nodup := by
    simpa [List.Nodup] using Std.ExtTreeMap.distinct_keys (t := small)
  have hsubperm : small.keys.Subperm large.keys :=
    List.subperm_of_subset hnodup fun key hkey =>
      Std.ExtTreeMap.mem_keys.mpr (hsub key (Std.ExtTreeMap.mem_keys.mp hkey))
  have hperm : small.keys.Perm large.keys :=
    hsubperm.perm_of_length_le (by simp [Std.ExtTreeMap.length_keys, hsize])
  exact Std.ExtTreeMap.mem_keys.mp (hperm.mem_iff.mpr (Std.ExtTreeMap.mem_keys.mpr hid))

/-! ## Parts of a run -/

/-- A transaction of either kind applied to the outputs, as the selection applies it. -/
def Ledger.applySelected (ledger : Ledger) (domain : TransactionV2Domain) (utxos : Utxos) :
    Transaction ⊕ TransactionV2 → Result Utxos
  | .inl transaction =>
    Prod.snd <$> Mutate.outcome (applyTransaction transaction ledger.transactionSigningDomain) utxos
  | .inr transaction =>
    Prod.snd <$> Mutate.outcome
      (applyPrevalidatedTransactionV2ToUtxos transaction domain ledger.network) utxos

/-- The part of a run from `before` to `now` selects the transactions of `order`, in that order. -/
structure Packed (ledger : Ledger) (domain : TransactionV2Domain)
    (order : List (Transaction ⊕ TransactionV2)) (before now : Selecting) : Prop where
  applied : order.foldlM (ledger.applySelected domain) before.utxos = .ok now.utxos
  transactions : now.selection.transactions
    = before.selection.transactions ++ order.filterMap Sum.getLeft?
  transactionsV2 : ∃ envelopes,
    List.Forall₂ (fun transaction envelope => envelopeOf domain transaction = .ok envelope)
      (order.filterMap Sum.getRight?) envelopes
    ∧ now.selection.transactionsV2 = before.selection.transactionsV2 ++ envelopes
  pool : (order.filterMap Sum.getLeft? ++ now.remaining).Subperm before.remaining
  poolV2 : (order.filterMap Sum.getRight? ++ now.remainingV2).Subperm before.remainingV2

lemma Selecting.apply_eq_ok {packing packing' : Selecting} {transaction : Transaction}
    {signingDomain : TransactionSigningDomain} :
    packing.apply transaction signingDomain = .ok packing' ↔
      ∃ utxos, Prod.snd <$> Mutate.outcome (applyTransaction transaction signingDomain)
          packing.utxos = .ok utxos
        ∧ { packing with utxos := utxos } = packing' := by
  simp only [Selecting.apply, bind_eq_ok, pure_eq_ok, map_eq_ok]
  constructor
  · rintro ⟨⟨u, utxos⟩, hrun, heq⟩
    exact ⟨utxos, ⟨(u, utxos), hrun, rfl⟩, heq⟩
  · rintro ⟨utxos, ⟨⟨u, utxos⟩, hrun, rfl⟩, heq⟩
    exact ⟨(u, utxos), hrun, heq⟩

lemma Selecting.applyV2_eq_ok {packing packing' : Selecting} {transaction : TransactionV2}
    {domain : TransactionV2Domain} {network : AddressNetwork} :
    packing.applyV2 transaction domain network = .ok packing' ↔
      ∃ utxos, Prod.snd <$> Mutate.outcome
          (applyPrevalidatedTransactionV2ToUtxos transaction domain network) packing.utxos
            = .ok utxos
        ∧ { packing with utxos := utxos } = packing' := by
  simp only [Selecting.applyV2, bind_eq_ok, pure_eq_ok, map_eq_ok]
  constructor
  · rintro ⟨⟨u, utxos⟩, hrun, heq⟩
    exact ⟨utxos, ⟨(u, utxos), hrun, rfl⟩, heq⟩
  · rintro ⟨utxos, ⟨⟨u, utxos⟩, hrun, rfl⟩, heq⟩
    exact ⟨(u, utxos), hrun, heq⟩

namespace Packed

variable {ledger : Ledger} {domain : TransactionV2Domain}
  {order order' : List (Transaction ⊕ TransactionV2)} {before now later : Selecting}

/-- Nothing selected, and possibly some pending transactions given up. -/
lemma shrink (hutxos : now.utxos = before.utxos) (hselection : now.selection = before.selection)
    (hpool : now.remaining.Subperm before.remaining)
    (hpoolV2 : now.remainingV2.Subperm before.remainingV2) :
    Packed ledger domain [] before now where
  applied := by simp [hutxos, pure, Except.pure]
  transactions := by simp [hselection]
  transactionsV2 := ⟨[], by simp, by simp [hselection]⟩
  pool := by simpa using hpool
  poolV2 := by simpa using hpoolV2

lemma refl : Packed ledger domain [] before before :=
  shrink rfl rfl (List.Subperm.refl _) (List.Subperm.refl _)

lemma trans (first : Packed ledger domain order before now)
    (second : Packed ledger domain order' now later) :
    Packed ledger domain (order ++ order') before later where
  applied := by
    rw [List.foldlM_append, first.applied]
    exact second.applied
  transactions := by
    rw [second.transactions, first.transactions, List.filterMap_append, List.append_assoc]
  transactionsV2 := by
    obtain ⟨envelopes, henvelopes, heq⟩ := first.transactionsV2
    obtain ⟨envelopes', henvelopes', heq'⟩ := second.transactionsV2
    refine ⟨envelopes ++ envelopes', ?_, by rw [heq', heq, List.append_assoc]⟩
    rw [List.filterMap_append]
    exact List.rel_append henvelopes henvelopes'
  pool := by
    rw [List.filterMap_append, List.append_assoc]
    exact ((List.subperm_append_left _).mpr second.pool).trans first.pool
  poolV2 := by
    rw [List.filterMap_append, List.append_assoc]
    exact ((List.subperm_append_left _).mpr second.poolV2).trans first.poolV2

lemma mem_transactions (packed : Packed ledger domain order before now) {transaction : Transaction}
    (h : transaction ∈ before.selection.transactions) :
    transaction ∈ now.selection.transactions := by
  rw [packed.transactions]
  exact List.mem_append_left _ h

lemma mem_transactionsV2 (packed : Packed ledger domain order before now) {envelope : Str}
    (h : envelope ∈ before.selection.transactionsV2) :
    envelope ∈ now.selection.transactionsV2 := by
  obtain ⟨envelopes, -, heq⟩ := packed.transactionsV2
  rw [heq]
  exact List.mem_append_left _ h

/-- A pending transaction that is taken, applied and appended. -/
lemma select {transaction : Transaction} {others : List Transaction} {middle : Selecting}
    (htaken : before.remaining.Perm (transaction :: others))
    (happly : ({ before with remaining := others } : Selecting).apply transaction
      ledger.transactionSigningDomain = .ok middle) :
    Packed ledger domain [.inl transaction] before (middle.push transaction) := by
  obtain ⟨utxos, hrun, rfl⟩ := Selecting.apply_eq_ok.mp happly
  exact {
    applied := by
      simp only [foldlM_cons_eq_ok, foldlM_nil_eq_ok, Ledger.applySelected]
      exact ⟨utxos, hrun, rfl⟩
    transactions := rfl
    transactionsV2 := ⟨[], List.Forall₂.nil, by simp [Selecting.push]⟩
    pool := htaken.symm.subperm
    poolV2 := List.Subperm.refl _ }

/-- A pending v2 transaction that is held while its parents are selected, then applied and
appended. -/
lemma selectV2 {transaction : TransactionV2} {others : List TransactionV2} {envelope : Str}
    {middle : Selecting} (htaken : before.remainingV2.Perm (transaction :: others))
    (parents : Packed ledger domain order { before with remainingV2 := others } now)
    (happly : now.applyV2 transaction domain ledger.network = .ok middle)
    (henvelope : envelopeOf domain transaction = .ok envelope) :
    Packed ledger domain (order ++ [.inr transaction]) before (middle.pushV2 envelope) := by
  obtain ⟨utxos, hrun, rfl⟩ := Selecting.applyV2_eq_ok.mp happly
  obtain ⟨envelopes, henvelopes, heq⟩ := parents.transactionsV2
  have hpoolV2 := parents.poolV2
  have hleft : (order ++ [Sum.inr transaction]).filterMap Sum.getLeft?
      = order.filterMap Sum.getLeft? := by
    rw [List.filterMap_append]
    exact List.append_nil _
  refine {
    applied := ?_
    transactions := by simpa [Selecting.pushV2, hleft] using parents.transactions
    transactionsV2 := ⟨envelopes ++ [envelope], ?_, ?_⟩
    pool := by simpa [Selecting.pushV2, hleft] using parents.pool
    poolV2 := ?_ }
  · rw [List.foldlM_append]
    refine bind_eq_ok.mpr ⟨now.utxos, parents.applied, ?_⟩
    simp only [foldlM_cons_eq_ok, foldlM_nil_eq_ok, Ledger.applySelected]
    exact ⟨utxos, hrun, rfl⟩
  · rw [List.filterMap_append]
    exact List.rel_append henvelopes (List.Forall₂.cons henvelope List.Forall₂.nil)
  · simp [Selecting.pushV2, heq]
  · have hmoved : ((order ++ [Sum.inr transaction]).filterMap Sum.getRight? ++ now.remainingV2).Perm
        (transaction :: (order.filterMap Sum.getRight? ++ now.remainingV2)) := by
      simp
    exact (hmoved.subperm.trans ((List.subperm_cons transaction).mpr hpoolV2)).trans
      htaken.symm.subperm

end Packed

/-! ## Pending parents -/

/-- The parents are selected first, and then the transaction itself is applied. -/
lemma Selecting.applyWithPendingParents_packed {ledger : Ledger} {domain : TransactionV2Domain}
    {depth : ℕ} {transaction : TransactionV2} {packing packing' : Selecting}
    (h : Selecting.applyWithPendingParents domain ledger.network depth transaction packing
      = .ok packing') :
    ∃ order middle, Packed ledger domain order packing middle
      ∧ middle.applyV2 transaction domain ledger.network = .ok packing' := by
  induction depth generalizing transaction packing packing' with
  | zero => exact ⟨[], packing, .refl, h⟩
  | succ depth ih =>
    simp only [Selecting.applyWithPendingParents, bind_eq_ok] at h
    obtain ⟨middle, hloop, happly⟩ := h
    suffices hpacked : ∃ order, Packed ledger domain order packing middle by
      obtain ⟨order, hpacked⟩ := hpacked
      exact ⟨order, middle, hpacked, happly⟩
    refine foldlM_prefix (fun _ state => ∃ order, Packed ledger domain order packing state)
      ⟨[], .refl⟩ ?_ hloop
    rintro - outpoint state state' - ⟨order, hpacked⟩ hstep
    by_cases hspendable : outpoint ∈ state.utxos
    · rw [if_pos hspendable, pure_eq_ok] at hstep
      exact ⟨order, hstep ▸ hpacked⟩
    · rw [if_neg hspendable] at hstep
      cases hfound : (state.remainingV2.findIdx? (hasTransactionId domain outpoint.txid)).bind
          (removeAt state.remainingV2) with
      | none =>
        simp only [hfound, pure_eq_ok] at hstep
        exact ⟨order, hstep ▸ hpacked⟩
      | some found =>
        obtain ⟨parent, others⟩ := found
        simp only [hfound, bind_eq_ok, pure_eq_ok] at hstep
        obtain ⟨applied, hparent, envelope, henvelope, rfl⟩ := hstep
        obtain ⟨index, -, hremoved⟩ := Option.bind_eq_some_iff.mp hfound
        obtain ⟨parents, middle, hparents, hmiddle⟩ := ih hparent
        exact ⟨_, hpacked.trans
          (.selectV2 (removeAt_perm hremoved) hparents hmiddle henvelope)⟩

/-! ## The required burns -/

namespace Ledger

variable {ledger : Ledger} {domain : TransactionV2Domain}

/-- The ids in `selected` are required ones, and burns with these signatures are in the block. -/
def AttestedIn (required selected : BTreeSet Str) (packing : Selecting) : Prop :=
  ∀ id ∈ selected, id ∈ required
    ∧ ∃ transaction ∈ packing.selection.transactions,
      transaction.isBurn ∧ transaction.signature = id

/-- The envelopes in `selected` are required ones and in the block. -/
def AttestedV2In (required selected : BTreeSet Str) (packing : Selecting) : Prop :=
  ∀ envelope ∈ selected, envelope ∈ required ∧ envelope ∈ packing.selection.transactionsV2

omit [Crypto] in
lemma attestedIn_empty {required : BTreeSet Str} {packing : Selecting} :
    AttestedIn required ∅ packing := fun _ hid =>
  absurd hid Std.ExtTreeMap.not_mem_empty

omit [Crypto] in
lemma attestedV2In_empty {required : BTreeSet Str} {packing : Selecting} :
    AttestedV2In required ∅ packing := fun _ hid =>
  absurd hid Std.ExtTreeMap.not_mem_empty

lemma AttestedIn.mono {required selected : BTreeSet Str} {packing packing' : Selecting}
    {order : List (Transaction ⊕ TransactionV2)} (h : AttestedIn required selected packing)
    (packed : Packed ledger domain order packing packing') :
    AttestedIn required selected packing' := by
  intro id hid
  obtain ⟨hrequired, transaction, hmem, hburn⟩ := h id hid
  exact ⟨hrequired, transaction, packed.mem_transactions hmem, hburn⟩

lemma AttestedV2In.mono {required selected : BTreeSet Str} {packing packing' : Selecting}
    {order : List (Transaction ⊕ TransactionV2)} (h : AttestedV2In required selected packing)
    (packed : Packed ledger domain order packing packing') :
    AttestedV2In required selected packing' := fun envelope hmem =>
  ⟨(h envelope hmem).1, packed.mem_transactionsV2 (h envelope hmem).2⟩

omit [Crypto] in
lemma AttestedIn.push {required selected : BTreeSet Str} {packing : Selecting}
    {transaction : Transaction} (h : AttestedIn required selected packing)
    (hrequired : transaction.signature ∈ required) (hburn : transaction.isBurn) :
    AttestedIn required (insertIds selected [transaction.signature])
      (packing.push transaction) := by
  intro id hid
  rcases mem_insertIds.mp hid with hnew | hold
  · obtain rfl := List.mem_singleton.mp hnew
    exact ⟨hrequired, transaction, by simp [Selecting.push], hburn, rfl⟩
  · obtain ⟨hreq, other, hmem, hother⟩ := h id hold
    exact ⟨hreq, other, List.mem_append_left _ hmem, hother⟩

/-- The anchor burn is a pending burn of the required owner. -/
lemma selectAnchor_packed {requiredBurnOwner : Option Str} {required selected : BTreeSet Str}
    {index : Option ℕ} {packing packing' : Selecting}
    (h : ledger.selectAnchor requiredBurnOwner required index packing
      = .ok (selected, packing')) :
    (∃ order, Packed ledger domain order packing packing')
      ∧ AttestedIn required selected packing' := by
  unfold selectAnchor at h
  cases hfound : index.bind (removeAt packing.remaining) with
  | none =>
    simp only [hfound, pure_eq_ok, Prod.mk.injEq] at h
    obtain ⟨rfl, rfl⟩ := h
    exact ⟨⟨[], .refl⟩, attestedIn_empty⟩
  | some found =>
    obtain ⟨transaction, others⟩ := found
    simp only [hfound, selectRequiredAnchorBurn, bind_eq_ok, bailIf_eq_ok, mapErr_eq_ok,
      pure_eq_ok] at h
    obtain ⟨-, ⟨-, hburn, -, -, -, -, middle, happly, rfl⟩, hselected⟩ := h
    obtain ⟨position, -, hremoved⟩ := Option.bind_eq_some_iff.mp hfound
    have hpacked : Packed ledger domain [.inl transaction] packing (middle.push transaction) :=
      .select (removeAt_perm hremoved) happly
    by_cases hrequired : transaction.signature ∈ required
    · rw [if_pos hrequired] at hselected
      obtain ⟨rfl, rfl⟩ := Prod.mk.inj hselected
      exact ⟨⟨_, hpacked⟩, attestedIn_empty.push hrequired (by simpa using hburn)⟩
    · rw [if_neg hrequired] at hselected
      obtain ⟨rfl, rfl⟩ := Prod.mk.inj hselected
      exact ⟨⟨_, hpacked⟩, attestedIn_empty⟩

lemma selectAnchorV2_packed {requiredBurnOwner : Option Str} {required selected : BTreeSet Str}
    {index : Option ℕ} {packing packing' : Selecting}
    (h : ledger.selectAnchorV2 domain requiredBurnOwner required index packing
      = .ok (selected, packing')) :
    (∃ order, Packed ledger domain order packing packing')
      ∧ AttestedV2In required selected packing' := by
  unfold selectAnchorV2 at h
  cases hfound : index.bind (removeAt packing.remainingV2) with
  | none =>
    simp only [hfound, pure_eq_ok, Prod.mk.injEq] at h
    obtain ⟨rfl, rfl⟩ := h
    exact ⟨⟨[], .refl⟩, attestedV2In_empty⟩
  | some found =>
    obtain ⟨transaction, others⟩ := found
    simp only [hfound, bind_eq_ok, bailIf_eq_ok, mapErr_eq_ok, pure_eq_ok, Prod.mk.injEq] at h
    obtain ⟨-, -, -, -, middle, happly, envelope, henvelope, rfl, rfl⟩ := h
    obtain ⟨position, -, hremoved⟩ := Option.bind_eq_some_iff.mp hfound
    obtain ⟨order, parents, hparents, hmiddle⟩ := Selecting.applyWithPendingParents_packed happly
    refine ⟨⟨_, .selectV2 (removeAt_perm hremoved) hparents hmiddle henvelope⟩, ?_⟩
    intro id hid
    rcases mem_insertIds.mp hid with hnew | hold
    · obtain ⟨hmem, hrequired⟩ := List.mem_filter.mp hnew
      exact ⟨by simpa using hrequired, hmem⟩
    · exact absurd hold Std.ExtTreeMap.not_mem_empty

/-- By induction on what the loop has not reached yet. -/
lemma selectAttestedBurns_packed {required selected selected' : BTreeSet Str}
    {passed rest : List Transaction} {packing packing' : Selecting}
    (h : ledger.selectAttestedBurns required passed rest selected packing
      = .ok (selected', packing'))
    (attested : AttestedIn required selected packing) :
    (∃ order, Packed ledger domain order { packing with remaining := passed ++ rest } packing')
      ∧ AttestedIn required selected' packing' := by
  induction rest generalizing passed selected packing with
  | nil =>
    simp only [selectAttestedBurns, pure_eq_ok, Prod.mk.injEq] at h
    obtain ⟨rfl, rfl⟩ := h
    exact ⟨⟨[], by simpa using Packed.refl⟩, attested⟩
  | cons transaction rest ih =>
    rw [selectAttestedBurns] at h
    split_ifs at h with hmissing hrequired
    · simp only [bind_eq_ok, bailIf_eq_ok, mapErr_eq_ok] at h
      obtain ⟨-, hburn, -, -, middle, happly, hloop⟩ := h
      obtain ⟨utxos, hrun, rfl⟩ := Selecting.apply_eq_ok.mp happly
      have hkept : AttestedIn required selected { packing with utxos := utxos } := attested
      obtain ⟨⟨order, hrest⟩, hattested⟩ := ih hloop
        (hkept.push hrequired (by simpa using hburn))
      have hselect : Packed ledger domain [.inl transaction]
          { packing with remaining := passed ++ transaction :: rest }
          (({ packing with remaining := passed ++ rest, utxos := utxos } : Selecting).push
            transaction) :=
        .select List.perm_middle (Selecting.apply_eq_ok.mpr ⟨utxos, hrun, rfl⟩)
      exact ⟨⟨_, hselect.trans hrest⟩, hattested⟩
    · obtain ⟨⟨order, hrest⟩, hattested⟩ := ih h attested
      exact ⟨⟨order, by simpa using hrest⟩, hattested⟩
    · obtain ⟨rfl, rfl⟩ := Prod.mk.inj (pure_eq_ok.mp h)
      exact ⟨⟨[], .refl⟩, attested⟩

omit [Crypto] in
lemma ensureAllAttested_ok {required selected : BTreeSet Str} {u : Unit}
    (h : ensureAllAttested required selected = .ok u) : selected.size = required.size := by
  unfold ensureAllAttested at h
  split_ifs at h with hsize
  · exact hsize
  · split at h
    · cases h
    · cases h

omit [Crypto] in
/-- What `findAttestedV2` finds is required, and the others are what is left of the pool. -/
lemma findAttestedV2_some {required : BTreeSet Str} {pool others : List TransactionV2}
    {transaction : TransactionV2} {envelope : Str}
    (h : findAttestedV2 domain required pool = .ok (some (transaction, envelope, others))) :
    pool.Perm (transaction :: others) ∧ envelopeOf domain transaction = .ok envelope
      ∧ envelope ∈ required := by
  induction pool generalizing others with
  | nil => simp [findAttestedV2] at h
  | cons first rest ih =>
    simp only [findAttestedV2, bind_eq_ok] at h
    obtain ⟨text, htext, h⟩ := h
    split_ifs at h with hrequired
    · simp only [pure_eq_ok, Option.some.injEq, Prod.mk.injEq] at h
      obtain ⟨rfl, rfl, rfl⟩ := h
      exact ⟨List.Perm.refl _, htext, hrequired⟩
    · simp only [bind_eq_ok, pure_eq_ok, Option.map_eq_some_iff] at h
      obtain ⟨found, hfound, ⟨attested, text', others'⟩, rfl, heq⟩ := h
      simp only [Prod.mk.injEq] at heq
      obtain ⟨rfl, rfl, rfl⟩ := heq
      obtain ⟨hperm, henvelope, hmem⟩ := ih hfound
      exact ⟨(hperm.cons first).trans (List.Perm.swap _ _ _), henvelope, hmem⟩

lemma selectAttestedBurnsV2_packed {required selected selected' : BTreeSet Str} {turns : ℕ}
    {packing packing' : Selecting}
    (h : ledger.selectAttestedBurnsV2 domain required turns selected packing
      = .ok (selected', packing'))
    (attested : AttestedV2In required selected packing) :
    (∃ order, Packed ledger domain order packing packing')
      ∧ AttestedV2In required selected' packing' := by
  induction turns generalizing selected packing with
  | zero =>
    obtain ⟨rfl, rfl⟩ := Prod.mk.inj (pure_eq_ok.mp h)
    exact ⟨⟨[], .refl⟩, attested⟩
  | succ turns ih =>
    rw [selectAttestedBurnsV2] at h
    split_ifs at h with hmissing
    · obtain ⟨found, hfound, h⟩ := bind_eq_ok.mp h
      match found, hfound, h with
      | none, _, h =>
        obtain ⟨rfl, rfl⟩ := Prod.mk.inj (pure_eq_ok.mp h)
        exact ⟨⟨[], .refl⟩, attested⟩
      | some (transaction, envelope, others), hfound, h =>
        simp only [bind_eq_ok, bailIf_eq_ok, mapErr_eq_ok] at h
        obtain ⟨-, -, packed, happly, -, -, hloop⟩ := h
        obtain ⟨hperm, henvelope, hrequired⟩ := findAttestedV2_some hfound
        obtain ⟨order, middle, hparents, hmiddle⟩ :=
          Selecting.applyWithPendingParents_packed happly
        have hpacked := Packed.selectV2 hperm hparents hmiddle henvelope
        obtain ⟨⟨order', hrest⟩, hattested⟩ := ih hloop (by
          intro id hid
          rcases mem_insertIds.mp hid with hnew | hold
          · rcases List.mem_append.mp hnew with hparent | hself
            · obtain ⟨hmem, hreq⟩ := List.mem_filter.mp hparent
              exact ⟨by simpa using hreq, List.mem_append_left _ (List.mem_of_mem_drop hmem)⟩
            · obtain rfl := List.mem_singleton.mp hself
              exact ⟨hrequired, by simp [Selecting.pushV2]⟩
          · exact attested.mono hpacked id hold)
        exact ⟨⟨_, hpacked.trans hrest⟩, hattested⟩
    · obtain ⟨rfl, rfl⟩ := Prod.mk.inj (pure_eq_ok.mp h)
      exact ⟨⟨[], .refl⟩, attested⟩

omit [Crypto] in
lemma removeAt_of_findIdx? {α : Type} {items : List α} {wanted : α → Bool} {index : ℕ}
    (h : items.findIdx? wanted = some index) :
    ∃ item others, (some index).bind (removeAt items) = some (item, others) ∧ wanted item := by
  obtain ⟨hlt, hwanted, -⟩ := List.findIdx?_eq_some_iff_getElem.mp h
  exact ⟨items[index], items.eraseIdx index, by simp [removeAt, hlt], hwanted⟩

/-- The block has the anchor burn `signature`, from the required owner. -/
def AnchoredBy (domain : TransactionV2Domain) (requiredBurnOwner : Option Str) (signature : Str)
    (selection : BlockSelection) : Prop :=
  (∃ transaction ∈ selection.transactions, transaction.isBurn ∧ transaction.signature = signature
      ∧ ∀ owner, requiredBurnOwner = some owner → transaction.sender = owner)
    ∨ ∃ transaction : TransactionV2, transaction.isBurn
      ∧ hasTransactionId domain signature transaction
      ∧ (∀ owner, requiredBurnOwner = some owner → transaction.burnLegacyOwner = .ok (some owner))
      ∧ ∃ envelope ∈ selection.transactionsV2, envelopeOf domain transaction = .ok envelope

lemma AnchoredBy.mono {requiredBurnOwner : Option Str} {signature : Str}
    {packing packing' : Selecting} {order : List (Transaction ⊕ TransactionV2)}
    (h : AnchoredBy domain requiredBurnOwner signature packing.selection)
    (packed : Packed ledger domain order packing packing') :
    AnchoredBy domain requiredBurnOwner signature packing'.selection := by
  rcases h with ⟨transaction, hmem, hburn⟩ | ⟨transaction, hburn, hid, howner, envelope, hmem, henv⟩
  · exact .inl ⟨transaction, packed.mem_transactions hmem, hburn⟩
  · exact .inr ⟨transaction, hburn, hid, howner, envelope, packed.mem_transactionsV2 hmem, henv⟩

/-- A required signature is found among the pending transactions, or else among the v2 ones. -/
lemma anchorIndices_signature {requiredBurnOwner : Option Str} {signature : Str}
    {index indexV2 : Option ℕ} {packing : Selecting}
    (h : ledger.anchorIndices domain requiredBurnOwner (some signature) packing
      = .ok (index, indexV2)) :
    (∃ transaction others, index.bind (removeAt packing.remaining) = some (transaction, others)
        ∧ transaction.signature = signature)
      ∨ index = none ∧ ∃ transaction others,
        indexV2.bind (removeAt packing.remainingV2) = some (transaction, others)
          ∧ hasTransactionId domain signature transaction := by
  simp only [anchorIndices, bind_eq_ok, bailIf_eq_ok, pure_eq_ok, Prod.mk.injEq] at h
  obtain ⟨-, hfound, hindex, hindexV2⟩ := h
  cases hlegacy : packing.remaining.findIdx? fun transaction =>
      transaction.signature = signature with
  | some position =>
    obtain ⟨transaction, others, hremoved, hsignature⟩ := removeAt_of_findIdx? hlegacy
    rw [hlegacy] at hindex
    exact .inl ⟨transaction, others, hindex ▸ hremoved, by simpa using hsignature⟩
  | none =>
    rw [hlegacy] at hindex
    simp only [hlegacy, Option.isNone_none, if_true] at hindexV2 hfound
    cases hv2 : packing.remainingV2.findIdx? (hasTransactionId domain signature) with
    | none => exact absurd ⟨trivial, hv2⟩ hfound
    | some position =>
      obtain ⟨transaction, others, hremoved, hid⟩ := removeAt_of_findIdx? hv2
      rw [hv2] at hindexV2
      exact .inr ⟨hindex.symm, transaction, others, hindexV2 ▸ hremoved, hid⟩

lemma selectAnchor_selects {requiredBurnOwner : Option Str} {required selected : BTreeSet Str}
    {index : Option ℕ} {packing packing' : Selecting} {transaction : Transaction}
    {others : List Transaction}
    (hfound : index.bind (removeAt packing.remaining) = some (transaction, others))
    (h : ledger.selectAnchor requiredBurnOwner required index packing = .ok (selected, packing')) :
    transaction.isBurn ∧ transaction ∈ packing'.selection.transactions
      ∧ ∀ owner, requiredBurnOwner = some owner → transaction.sender = owner := by
  simp only [selectAnchor, hfound, selectRequiredAnchorBurn, bind_eq_ok, bailIf_eq_ok,
    mapErr_eq_ok, pure_eq_ok] at h
  obtain ⟨pushed, ⟨-, hburn, -, howner, -, -, middle, -, rfl⟩, hselected⟩ := h
  have hpacking : middle.push transaction = packing' := by
    split_ifs at hselected
    · exact (Prod.mk.inj hselected).2
    · exact (Prod.mk.inj hselected).2
  refine ⟨by simpa using hburn, by simp [← hpacking, Selecting.push], ?_⟩
  rintro owner rfl
  simpa using howner

lemma selectAnchorV2_selects {requiredBurnOwner : Option Str} {required selected : BTreeSet Str}
    {index : Option ℕ} {packing packing' : Selecting} {transaction : TransactionV2}
    {others : List TransactionV2}
    (hfound : index.bind (removeAt packing.remainingV2) = some (transaction, others))
    (h : ledger.selectAnchorV2 domain requiredBurnOwner required index packing
      = .ok (selected, packing')) :
    transaction.isBurn
      ∧ (∀ owner, requiredBurnOwner = some owner → transaction.burnLegacyOwner = .ok (some owner))
      ∧ ∃ envelope ∈ packing'.selection.transactionsV2,
        envelopeOf domain transaction = .ok envelope := by
  simp only [selectAnchorV2, hfound, bind_eq_ok, bailIf_eq_ok, mapErr_eq_ok, pure_eq_ok,
    Prod.mk.injEq] at h
  obtain ⟨-, hburn, u, howner, middle, -, envelope, henvelope, -, rfl⟩ := h
  refine ⟨by simpa using hburn, ?_, envelope, by simp [Selecting.pushV2], henvelope⟩
  rintro owner rfl
  simp only [ensureAnchorBurnFrom, bind_eq_ok, bailIf_eq_ok, not_not] at howner
  obtain ⟨burnOwner, hread, rfl⟩ := howner
  exact hread

/-- The required part of a block is a run of the selection in which no attested burn is missing. -/
lemma selectRequired_packed {requiredBurnOwner requiredBurnSignature : Option Str}
    {burns : BurnBundleSection} {packing : Selecting}
    (h : ledger.selectRequired domain requiredBurnOwner requiredBurnSignature burns
      = .ok packing) :
    (∃ order, Packed ledger domain order ledger.packable packing)
      ∧ (∀ signature, requiredBurnSignature = some signature →
          AnchoredBy domain requiredBurnOwner signature packing.selection)
      ∧ (∀ burn ∈ burns.requiredBurns, ∃ transaction ∈ packing.selection.transactions,
          transaction.isBurn ∧ transaction.signature = burn.signature)
      ∧ ∀ envelope ∈ burns.requiredBurnsV2, envelope ∈ packing.selection.transactionsV2 := by
  simp only [selectRequired, bind_eq_ok, bailIf_eq_ok, pure_eq_ok, Prod.exists] at h
  obtain ⟨index, indexV2, hindices, selected, anchored, hanchor, selectedV2, anchoredV2, hanchorV2,
    attestedIds, attested, hattested, u, hall, attestedV2Ids, attestedV2, hattestedV2, -, hallV2,
    rfl⟩ := h
  have hsize : attestedIds.size
      = (insertIds ∅ (burns.requiredBurns.map Transaction.signature)).size :=
    ensureAllAttested_ok hall
  obtain ⟨⟨order₁, hpacked₁⟩, hin₁⟩ :
      (∃ order, Packed ledger domain order ledger.packable anchored) ∧ _ :=
    selectAnchor_packed hanchor
  obtain ⟨⟨order₂, hpacked₂⟩, hin₂⟩ := selectAnchorV2_packed hanchorV2
  obtain ⟨⟨order₃, hpacked₃⟩, hin₃⟩ :
      (∃ order, Packed ledger domain order anchoredV2 attested) ∧ _ :=
    selectAttestedBurns_packed hattested (hin₁.mono hpacked₂)
  obtain ⟨⟨order₄, hpacked₄⟩, hin₄⟩ := selectAttestedBurnsV2_packed hattestedV2
    (hin₂.mono hpacked₃)
  refine ⟨⟨_, hpacked₁.trans (hpacked₂.trans (hpacked₃.trans hpacked₄))⟩, ?_, ?_, ?_⟩
  · rintro signature rfl
    suffices hanchored : AnchoredBy domain requiredBurnOwner signature anchoredV2.selection from
      hanchored.mono (hpacked₃.trans hpacked₄)
    rcases anchorIndices_signature hindices with
      ⟨transaction, others, hfound, hsignature⟩ | ⟨rfl, transaction, others, hfound, hid⟩
    · obtain ⟨hburn, hmem, howner⟩ := selectAnchor_selects hfound hanchor
      exact .inl ⟨transaction, hpacked₂.mem_transactions hmem, hburn, hsignature, howner⟩
    · -- no pending transaction is the anchor, so the v2 one is sought in the same pools
      obtain ⟨-, rfl⟩ := Prod.mk.inj (pure_eq_ok.mp hanchor)
      obtain ⟨hburn, howner, henvelope⟩ := selectAnchorV2_selects hfound hanchorV2
      exact .inr ⟨transaction, hburn, hid, howner, henvelope⟩
  · intro burn hburn
    have hrequired : burn.signature
        ∈ insertIds ∅ (burns.requiredBurns.map Transaction.signature) :=
      mem_insertIds.mpr (.inl (List.mem_map_of_mem hburn))
    have hselected := mem_of_subset_of_size (fun id hid => (hin₃ id hid).1) hsize hrequired
    obtain ⟨-, transaction, hmem, hfound⟩ := (hin₃.mono hpacked₄) _ hselected
    exact ⟨transaction, hmem, hfound⟩
  · intro envelope hmem
    have hrequired : envelope ∈ insertIds ∅ burns.requiredBurnsV2 :=
      mem_insertIds.mpr (.inl hmem)
    exact (hin₄ envelope (mem_of_subset_of_size (fun id hid => (hin₄ id hid).1)
      (not_not.mp hallV2) hrequired)).2

/-! ## The rest of the block -/

/-- The selection does not take more bytes than a block may have. -/
def FitsInBlock (ledger : Ledger) (finalizerMode : FinalizerMode) (burns : BurnBundleSection)
    (selection : BlockSelection) : Prop :=
  ∃ size, estimatedBlockSelectionSizeBytes ledger.compactBlockContext selection finalizerMode
      burns = .ok size
    ∧ size ≤ ledger.launchProfile.maxBlockBytes

lemma offerLegacy_packed {finalizerMode : FinalizerMode} {burns : BurnBundleSection} {index : ℕ}
    {packing packing' : Selecting}
    (h : ledger.offerLegacy finalizerMode burns index packing = .ok packing')
    (fits : FitsInBlock ledger finalizerMode burns packing.selection) :
    (∃ order, Packed ledger domain order packing packing')
      ∧ FitsInBlock ledger finalizerMode burns packing'.selection := by
  unfold offerLegacy at h
  cases hremoved : removeAt packing.remaining index with
  | none =>
    simp only [hremoved, pure_eq_ok] at h
    exact ⟨⟨[], h ▸ .refl⟩, h ▸ fits⟩
  | some found =>
    obtain ⟨transaction, others⟩ := found
    have hperm := removeAt_perm hremoved
    simp only [hremoved, bind_eq_ok] at h
    obtain ⟨size, hsize, h⟩ := h
    split_ifs at h with hroom
    · obtain ⟨utxos, hrun, rfl⟩ := Selecting.apply_eq_ok.mp h
      refine ⟨⟨_, Packed.select hperm (Selecting.apply_eq_ok.mpr ⟨utxos, hrun, rfl⟩)⟩,
        size, hsize, hroom⟩
    · obtain rfl := pure_eq_ok.mp h
      exact ⟨⟨[], .shrink rfl rfl
        ((List.sublist_cons_self _ _).subperm.trans hperm.symm.subperm)
        (List.Subperm.refl _)⟩, fits⟩

lemma offerV2_packed {finalizerMode : FinalizerMode} {burns : BurnBundleSection} {index : ℕ}
    {utxos : Utxos} {packing packing' : Selecting}
    (applies : ∀ transaction others, removeAt packing.remainingV2 index = some (transaction, others)
      → packing.applyV2 transaction domain ledger.network = .ok { packing with utxos := utxos })
    (h : ledger.offerV2 domain finalizerMode burns index utxos packing = .ok packing')
    (fits : FitsInBlock ledger finalizerMode burns packing.selection) :
    (∃ order, Packed ledger domain order packing packing')
      ∧ FitsInBlock ledger finalizerMode burns packing'.selection := by
  unfold offerV2 at h
  cases hremoved : removeAt packing.remainingV2 index with
  | none =>
    simp only [hremoved, pure_eq_ok] at h
    exact ⟨⟨[], h ▸ .refl⟩, h ▸ fits⟩
  | some found =>
    obtain ⟨transaction, others⟩ := found
    have hperm := removeAt_perm hremoved
    obtain ⟨applied, hrun, happlied⟩ := Selecting.applyV2_eq_ok.mp (applies _ _ hremoved)
    obtain rfl : applied = utxos := congrArg Selecting.utxos happlied
    simp only [hremoved, bind_eq_ok] at h
    obtain ⟨envelope, henvelope, size, hsize, h⟩ := h
    split_ifs at h with hroom
    · obtain rfl := pure_eq_ok.mp h
      exact ⟨⟨_, Packed.selectV2 hperm .refl (Selecting.applyV2_eq_ok.mpr ⟨applied, hrun, rfl⟩)
        henvelope⟩, size, hsize, hroom⟩
    · obtain rfl := pure_eq_ok.mp h
      exact ⟨⟨[], .shrink rfl rfl (List.Subperm.refl _)
        ((List.sublist_cons_self _ _).subperm.trans hperm.symm.subperm)⟩, fits⟩

/-- The outputs that come with the best v2 transaction are those after its application. -/
lemma bestSelectableV2_applies {network : AddressNetwork} {packing : Selecting} {index rate : ℕ}
    {utxos : Utxos} (h : bestSelectableV2 domain network packing = some (index, rate, utxos))
    {transaction : TransactionV2} {others : List TransactionV2}
    (hremoved : removeAt packing.remainingV2 index = some (transaction, others)) :
    packing.applyV2 transaction domain network = .ok { packing with utxos := utxos } := by
  obtain ⟨⟨candidate, position⟩, hentry, hcandidate⟩ := List.mem_filterMap.mp (maxBy_mem h)
  obtain ⟨found, hfound, heq⟩ := Option.map_eq_some_iff.mp hremoved
  obtain ⟨rfl, rfl⟩ := Prod.mk.inj heq
  cases happly : packing.applyV2 candidate domain network with
  | error error => simp [happly, Except.toOption] at hcandidate
  | ok applied =>
    cases hencode : candidate.encode domain with
    | error error => simp [happly, hencode, Except.toOption] at hcandidate
    | ok bytes =>
      simp only [happly, hencode, Except.toOption, Option.bind_eq_bind, Option.bind_some,
        Option.pure_def, Option.some.injEq, Prod.mk.injEq] at hcandidate
      obtain ⟨rfl, -, rfl⟩ := hcandidate
      have hposition := List.mem_zipIdx_iff_getElem?.mp hentry
      obtain rfl : candidate = found := Option.some.inj (hposition.symm.trans hfound)
      obtain ⟨utxos, -, rfl⟩ := Selecting.applyV2_eq_ok.mp happly
      exact happly

lemma fillTurn_packed {finalizerMode : FinalizerMode} {burns : BurnBundleSection}
    {packing packing' : Selecting}
    (h : ledger.fillTurn domain finalizerMode burns packing = some (.ok packing'))
    (fits : FitsInBlock ledger finalizerMode burns packing.selection) :
    (∃ order, Packed ledger domain order packing packing')
      ∧ FitsInBlock ledger finalizerMode burns packing'.selection := by
  simp only [fillTurn] at h
  split_ifs at h with hfull
  split at h
  · cases h
  · next index rate utxos hlegacy hbest =>
    exact offerV2_packed (fun _ _ => bestSelectableV2_applies hbest) (Option.some.inj h) fits
  · exact offerLegacy_packed (Option.some.inj h) fits
  · next index rate indexV2 rateV2 utxos hlegacy hbest =>
    split_ifs at h with hrate
    · exact offerV2_packed (fun _ _ => bestSelectableV2_applies hbest) (Option.some.inj h) fits
    · exact offerLegacy_packed (Option.some.inj h) fits

/-- By induction on the turns. -/
lemma fillBlock_packed {finalizerMode : FinalizerMode} {burns : BurnBundleSection} {turns : ℕ}
    {packing packing' : Selecting}
    (h : ledger.fillBlock domain finalizerMode burns turns packing = .ok packing')
    (fits : FitsInBlock ledger finalizerMode burns packing.selection) :
    (∃ order, Packed ledger domain order packing packing')
      ∧ FitsInBlock ledger finalizerMode burns packing'.selection := by
  induction turns generalizing packing with
  | zero =>
    obtain rfl := pure_eq_ok.mp h
    exact ⟨⟨[], .refl⟩, fits⟩
  | succ turns ih =>
    rw [fillBlock] at h
    cases hturn : ledger.fillTurn domain finalizerMode burns packing with
    | none =>
      simp only [hturn, pure_eq_ok] at h
      exact ⟨⟨[], h ▸ .refl⟩, h ▸ fits⟩
    | some turn =>
      simp only [hturn, bind_eq_ok] at h
      obtain ⟨middle, rfl, hrest⟩ := h
      obtain ⟨⟨order, hpacked⟩, hfits⟩ := fillTurn_packed hturn fits
      obtain ⟨⟨order', hpacked'⟩, hfits'⟩ := ih hrest hfits
      exact ⟨⟨_, hpacked.trans hpacked'⟩, hfits'⟩

/-! ## The whole selection -/

/-- The required part, and the run that fills the block behind it. -/
lemma selection_packed {requiredBurnOwner requiredBurnSignature : Option Str}
    {finalizerMode : FinalizerMode} {burns : BurnBundleSection} {selection : BlockSelection}
    (h : ledger.selectBlockTransactionsWithRequiredBurnOwner requiredBurnOwner
      requiredBurnSignature finalizerMode burns = .ok selection) :
    ∃ domain required packing, ledger.transactionV2Domain = .ok domain
      ∧ ledger.selectRequired domain requiredBurnOwner requiredBurnSignature burns = .ok required
      ∧ (∃ order, Packed ledger domain order required packing)
      ∧ FitsInBlock ledger finalizerMode burns packing.selection
      ∧ packing.selection = selection := by
  simp only [selectBlockTransactionsWithRequiredBurnOwner, bind_eq_ok, bailIf_eq_ok,
    pure_eq_ok] at h
  obtain ⟨domain, hdomain, required, hrequired, size, hsize, -, hroom, packing, hfill, rfl⟩ := h
  obtain ⟨hpacked, hfits⟩ := fillBlock_packed hfill ⟨size, hsize, not_lt.mp hroom⟩
  exact ⟨domain, required, packing, hdomain, hrequired, hpacked, hfits, rfl⟩

/-- What is selected can be spent together: in the order in which the selection took them, the
transactions apply one after the other to the outputs of the ledger.  All of them are pending
transactions that are eligible for the next block, and no pending transaction is taken twice. -/
theorem selection_spendable {requiredBurnOwner requiredBurnSignature : Option Str}
    {finalizerMode : FinalizerMode} {burns : BurnBundleSection} {selection : BlockSelection}
    (h : ledger.selectBlockTransactionsWithRequiredBurnOwner requiredBurnOwner
      requiredBurnSignature finalizerMode burns = .ok selection) :
    ∃ (domain : TransactionV2Domain) (order : List (Transaction ⊕ TransactionV2)) (utxos : Utxos),
      ledger.transactionV2Domain = .ok domain
      ∧ order.foldlM (ledger.applySelected domain) ledger.utxos = .ok utxos
      ∧ order.filterMap Sum.getLeft? = selection.transactions
      ∧ List.Forall₂ (fun transaction envelope => envelopeOf domain transaction = .ok envelope)
          (order.filterMap Sum.getRight?) selection.transactionsV2
      ∧ selection.transactions.Subperm
          (ledger.validPendingTransactions.filter ledger.transactionIsEligibleForNextBlock)
      ∧ (order.filterMap Sum.getRight?).Subperm
          (ledger.pendingV2.filter ledger.transactionV2IsEligibleForNextBlock)
      ∧ (selection.transactionsV2 ≠ [] →
          transactionV2ActivationHeight ≤ saturatingAdd ledger.height 1) := by
  obtain ⟨domain, required, packing, hdomain, hrequired, ⟨order', hfilled⟩, -, rfl⟩ :=
    selection_packed h
  obtain ⟨⟨order, hpacked⟩, -⟩ := selectRequired_packed hrequired
  have whole := hpacked.trans hfilled
  obtain ⟨envelopes, henvelopes, hselectedV2⟩ := whole.transactionsV2
  have hselected : (order ++ order').filterMap Sum.getLeft? = packing.selection.transactions :=
    whole.transactions.symm
  have hselectedV2 : packing.selection.transactionsV2 = envelopes := hselectedV2
  have hpool : packing.selection.transactions.Subperm ledger.packable.remaining :=
    hselected ▸ (List.sublist_append_left _ _).subperm.trans whole.pool
  have hpoolV2 : ((order ++ order').filterMap Sum.getRight?).Subperm ledger.packable.remainingV2 :=
    (List.sublist_append_left _ _).subperm.trans whole.poolV2
  refine ⟨domain, order ++ order', packing.utxos, hdomain, whole.applied, hselected,
    hselectedV2 ▸ henvelopes, hpool, ?_, ?_⟩
  · by_cases hactive : transactionV2ActivationHeight ≤ saturatingAdd ledger.height 1
    · simpa only [packable, if_pos hactive] using hpoolV2
    · simp only [packable, if_neg hactive, List.subperm_nil] at hpoolV2
      rw [hpoolV2]
      exact List.nil_subperm
  · intro hsome
    by_contra hinactive
    simp only [packable, if_neg hinactive, List.subperm_nil] at hpoolV2
    rw [hpoolV2, List.forall₂_nil_left_iff] at henvelopes
    exact hsome (hselectedV2.trans henvelopes)

/-- The block has room for what is selected, the required burn anchors it, and every burn that the
committee attests is selected. -/
theorem selection_complete {requiredBurnOwner requiredBurnSignature : Option Str}
    {finalizerMode : FinalizerMode} {burns : BurnBundleSection} {selection : BlockSelection}
    (h : ledger.selectBlockTransactionsWithRequiredBurnOwner requiredBurnOwner
      requiredBurnSignature finalizerMode burns = .ok selection) :
    FitsInBlock ledger finalizerMode burns selection
      ∧ (∀ signature, requiredBurnSignature = some signature →
          ∃ domain, ledger.transactionV2Domain = .ok domain
            ∧ AnchoredBy domain requiredBurnOwner signature selection)
      ∧ (∀ burn ∈ burns.requiredBurns, ∃ transaction ∈ selection.transactions,
          transaction.isBurn ∧ transaction.signature = burn.signature)
      ∧ ∀ envelope ∈ burns.requiredBurnsV2, envelope ∈ selection.transactionsV2 := by
  obtain ⟨domain, required, packing, hdomain, hrequired, ⟨order, hfilled⟩, hfits, rfl⟩ :=
    selection_packed h
  obtain ⟨-, hanchored, hburns, hburnsV2⟩ := selectRequired_packed hrequired
  refine ⟨hfits, fun signature hsignature =>
    ⟨domain, hdomain, (hanchored signature hsignature).mono hfilled⟩, ?_,
    fun envelope hmem => hfilled.mem_transactionsV2 (hburnsV2 envelope hmem)⟩
  intro burn hburn
  obtain ⟨transaction, hmem, hfound⟩ := hburns burn hburn
  exact ⟨transaction, hfilled.mem_transactions hmem, hfound⟩

end Ledger

end Selection

namespace Toy

attribute [local instance] crypto

/-- The genesis ledger with a burn and a mine action pending. -/
def pooledGenesis : Ledger :=
  (genesis.submitIgnoringErrors fun ledger =>
    ledger.submitTransactionWithOutcome (burnAllocation microIuna 1)).submitIgnoringErrors
      fun ledger => ledger.submitTransactionWithOutcome (minedCoin 0)

/-- The burn is attested by the first slot of the committee. -/
def attestedSection : BurnBundleSection :=
  { BurnBundleSection.default with burns := [⟨burnAllocation microIuna 1, 1⟩] }

/-- The selection of the owner, who recovers with the burn as the anchor. -/
def packedBlock : Result BlockSelection :=
  pooledGenesis.selectBlockTransactionsWithRequiredBurnOwner (some owner)
    (some (burnAllocation microIuna 1).signature) .recovery attestedSection

set_option maxRecDepth 10000 in
lemma packedBlock_isOk : packedBlock.isOk = true := by decide +kernel

set_option maxRecDepth 10000 in
/-- The owner finds both pending transactions, the burn first, and they can be spent together. -/
theorem packedBlock_spendable :
    (Outcome.value packedBlock packedBlock_isOk).transactions
        = [burnAllocation microIuna 1, minedCoin 0]
      ∧ ∃ (domain : TransactionV2Domain) (order : List (Transaction ⊕ TransactionV2))
          (utxos : Utxos),
        pooledGenesis.transactionV2Domain = .ok domain
          ∧ order.foldlM (pooledGenesis.applySelected domain) pooledGenesis.utxos = .ok utxos
          ∧ order.filterMap Sum.getLeft?
            = (Outcome.value packedBlock packedBlock_isOk).transactions := by
  refine ⟨by decide +kernel, ?_⟩
  obtain ⟨domain, order, utxos, hdomain, hrun, hselected, -⟩ :=
    Ledger.selection_spendable (Outcome.eq_ok_value packedBlock packedBlock_isOk)
  exact ⟨domain, order, utxos, hdomain, hrun, hselected⟩

/-- The burn that is required and attested is selected, and the block has room. -/
theorem packedBlock_complete :
    Ledger.FitsInBlock pooledGenesis .recovery attestedSection
        (Outcome.value packedBlock packedBlock_isOk)
      ∧ (∀ signature, some (burnAllocation microIuna 1).signature = some signature →
          ∃ domain, pooledGenesis.transactionV2Domain = .ok domain
            ∧ Ledger.AnchoredBy domain (some owner) signature
              (Outcome.value packedBlock packedBlock_isOk))
      ∧ (∀ burn ∈ attestedSection.requiredBurns,
          ∃ transaction ∈ (Outcome.value packedBlock packedBlock_isOk).transactions,
            transaction.isBurn ∧ transaction.signature = burn.signature)
      ∧ ∀ envelope ∈ attestedSection.requiredBurnsV2,
          envelope ∈ (Outcome.value packedBlock packedBlock_isOk).transactionsV2 :=
  Ledger.selection_complete (Outcome.eq_ok_value packedBlock packedBlock_isOk)

end Toy

end Iuna
