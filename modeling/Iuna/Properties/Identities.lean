import Iuna.Properties.AddressCodec
import Iuna.Properties.Tickets

/-!
# Legacy owners and hybrid addresses

Two sorts of text name an owner: the hexadecimal key of a legacy owner and the Bech32m text of a
hybrid address.  Tickets are always owned by the first (`reachable_namedApart`), and the ledger
binds only the second, so that the identity of a ticket's owner is the owner itself
(`identity_of_ticket`).
-/

namespace Iuna

open Runs

/-- A text that is read as hexadecimal. -/
def HexText (text : Str) : Prop := ∃ bytes, decodeHex text = .ok bytes

lemma hexText_of_validateAddress {address : Str} {label : String} {u : Unit}
    (h : validateAddress address label = .ok u) : HexText address := by
  obtain ⟨key, hkey⟩ := validateAddress_eq_ok.mp h
  exact ⟨key.val, decodeHexArray_eq_ok.mp hkey⟩

lemma hexText_hexEncode (bytes : Bytes) : HexText (hexEncode bytes) :=
  ⟨bytes, decodeHex_hexEncode bytes⟩

variable [Crypto]

/-- The prefix of an address is not hexadecimal. -/
lemma encoded_not_hexText {network : AddressNetwork} {address : VersionedAddress} {text : Str}
    (encoded : encodeVersionedAddress address network = .ok text) : ¬ HexText text := by
  rintro ⟨bytes, hbytes⟩
  obtain ⟨values, hwritten⟩ := written_of_encoded encoded
  rw [hwritten.text_eq] at hbytes
  simp only [decodeHex, Outcome.bind_eq_ok] at hbytes
  obtain ⟨_, -, hpairs⟩ := hbytes
  cases network with
  | mainnet =>
    have hutf8 : utf8 (AddressNetwork.mainnet.hrp ++ '1' :: letters values)
        = 0x69 :: 0x75 :: utf8 (str "na" ++ '1' :: letters values) := rfl
    rw [hutf8] at hpairs
    simp [decodeHexPairs, hexValue] at hpairs
  | testnet =>
    have hutf8 : utf8 (AddressNetwork.testnet.hrp ++ '1' :: letters values)
        = 0x74 :: 0x69 :: utf8 (str "una" ++ '1' :: letters values) := rfl
    rw [hutf8] at hpairs
    simp [decodeHexPairs, hexValue] at hpairs

/-! ## The owners of tickets -/

/-- The inputs of a checked burn have legacy owners. -/
lemma hexText_of_terms {ledger : Ledger} {inputs : List TxInput} {change : List TxOutput}
    {amount fee : Amount} {anchor : Option Str} {signature : Str} {u : Unit}
    (h : ledger.validateTransactionTerms (.burn inputs change amount fee anchor signature)
      = .ok u) : ∀ input ∈ inputs, HexText input.owner := by
  have hvalid : ∃ u, validateTransactionInputs inputs = .ok u := by
    cases anchor with
    | none =>
      simp only [Ledger.validateTransactionTerms, Outcome.bind_eq_ok] at h
      obtain ⟨_, _, _, hvalid, -⟩ := h
      exact ⟨_, hvalid⟩
    | some anchor =>
      simp only [Ledger.validateTransactionTerms, Outcome.bind_eq_ok] at h
      obtain ⟨_, _, _, hvalid, -⟩ := h
      exact ⟨_, hvalid⟩
  intro input hinput
  obtain ⟨_, hvalid⟩ := hvalid
  have hchecked := Outcome.forM_eq_ok.mp hvalid input hinput
  simp only [Outcome.bind_eq_ok] at hchecked
  obtain ⟨_, _, _, howner, -⟩ := hchecked
  exact hexText_of_validateAddress howner

omit [Crypto] in
/-- The inputs of a checked genesis burn have legacy owners. -/
lemma hexText_of_genesisBurn {inputs : List TxInput} {change : List TxOutput}
    {amount fee : Amount} {anchor : Option Str} {signature : Str} {u : Unit}
    (h : validateGenesisBurnTransaction (.burn inputs change amount fee anchor signature)
      = .ok u) : ∀ input ∈ inputs, HexText input.owner := by
  intro input hinput
  simp only [validateGenesisBurnTransaction, Outcome.bind_eq_ok] at h
  obtain ⟨_, -, _, -, _, -, hinputs⟩ := h
  have hchecked := Outcome.forM_eq_ok.mp hinputs input hinput
  simp only [Outcome.bind_eq_ok] at hchecked
  obtain ⟨_, _, _, howner, -⟩ := hchecked
  exact hexText_of_validateAddress howner

/-- A burn in an envelope is owned by the classical half of its key. -/
lemma hexText_of_burnLegacyOwner {transaction : TransactionV2} {owner : Str}
    (h : transaction.burnLegacyOwner = .ok (some owner)) : HexText owner := by
  unfold TransactionV2.burnLegacyOwner at h
  split at h
  · simp only [Outcome.bind_eq_ok, Outcome.pure_eq_ok, Option.some.injEq] at h
    obtain ⟨_, -, _, -, _, -, _, -, _, -, _, -, rfl⟩ := h
    exact hexText_hexEncode _
  · cases h

lemma hexText_of_ticketOfEnvelope {height : ℕ} {profile : LaunchProfile} {envelope : Str}
    {ticket : BurnTicket} (h : ticketOfEnvelope height profile envelope = .ok (some ticket)) :
    HexText ticket.owner := by
  simp only [ticketOfEnvelope, Outcome.bind_eq_ok] at h
  obtain ⟨_, -, ⟨_, transaction⟩, -, h⟩ := h
  dsimp only at h
  split at h
  · cases h
  · simp only [Outcome.bind_eq_ok, orError, Outcome.ofOption_eq_ok, Outcome.pure_eq_ok,
      Option.some.injEq] at h
    obtain ⟨_, hlegacy, owner, rfl, _, -, _, -, rfl⟩ := h
    exact hexText_of_burnLegacyOwner hlegacy

/-- The tickets of a block are owned by legacy owners, if its burns are. -/
lemma hexText_of_created {block : Block} {profile : LaunchProfile} {created : List BurnTicket}
    (burns : ∀ inputs change amount fee anchor signature,
      Transaction.burn inputs change amount fee anchor signature ∈ block.transactions →
        ∀ input ∈ inputs, HexText input.owner)
    (h : ticketsCreatedByBlock block profile = .ok created) :
    ∀ ticket ∈ created, HexText ticket.owner := by
  intro ticket hticket
  rcases (mem_ticketsCreatedByBlock h).mp hticket with
    ⟨transaction, htransaction, hcreated⟩ | ⟨envelope, -, hcreated⟩
  · obtain ⟨-, input, inputs, change, amount, fee, anchor, signature, rfl, -, rfl⟩ :=
      ticketOfTransaction_eq_some.mp hcreated
    exact burns _ _ _ _ _ _ htransaction input List.mem_cons_self
  · exact hexText_of_ticketOfEnvelope hcreated

/-- The genesis tickets are owned by legacy owners, if the allocations and the burns are. -/
lemma hexText_of_genesisTickets {genesisAllocations : BTreeMap Str Amount} {genesis : Block}
    {profile : LaunchProfile} {tickets : List BurnTicket}
    (allocations : ∀ owner amount, (owner, amount) ∈ genesisAllocations.toList → HexText owner)
    (burns : ∀ inputs change amount fee anchor signature,
      Transaction.burn inputs change amount fee anchor signature ∈ genesis.transactions →
        ∀ input ∈ inputs, HexText input.owner)
    (h : genesisTickets genesisAllocations genesis profile = .ok tickets) :
    ∀ ticket ∈ tickets, HexText ticket.owner := by
  unfold genesisTickets at h
  split at h
  · exact hexText_of_created burns h
  · dsimp only at h
    split at h
    · obtain rfl := Outcome.pure_eq_ok.mp h
      intro ticket hticket
      obtain ⟨_, -, source, hsource, rfl⟩ := mem_genesisBootstrapTickets.mp hticket
      obtain ⟨transaction, htransaction, hburn⟩ := List.mem_filterMap.mp hsource
      unfold genesisBurnTicket at hburn
      split at hburn
      · split at hburn
        · obtain rfl := Option.some.inj hburn
          exact burns _ _ _ _ _ _ htransaction _ List.mem_cons_self
        · cases hburn
      · cases hburn
    · split at h
      · obtain rfl := Outcome.pure_eq_ok.mp h
        intro ticket hticket
        cases hticket
      · rename_i owner amount hfound
        obtain rfl := Outcome.pure_eq_ok.mp h
        intro ticket hticket
        obtain ⟨_, -, source, hsource, rfl⟩ := mem_genesisBootstrapTickets.mp hticket
        rw [List.mem_singleton.mp hsource]
        exact allocations owner amount (List.mem_reverse.mp (List.mem_of_find?_eq_some hfound))

/-! ## The bindings -/

/-- Every bound address is one that the encoder writes. -/
def BindsAddresses (bindings : BTreeMap Str Str) : Prop :=
  ∀ hybrid legacy, bindings[hybrid]? = some legacy → ¬ HexText hybrid

lemma bindsAddresses_of_binding {network : AddressNetwork} {bindings bindings' : BTreeMap Str Str}
    {binding : VersionedAddress × Str} (binds : BindsAddresses bindings)
    (h : recordHybridLegacyOwnerBinding network bindings binding = .ok bindings') :
    BindsAddresses bindings' := by
  simp only [recordHybridLegacyOwnerBinding, Outcome.bind_eq_ok] at h
  obtain ⟨address, hencoded, h⟩ := h
  split at h
  · simp only [Outcome.bind_eq_ok, Outcome.pure_eq_ok] at h
    obtain ⟨_, -, rfl⟩ := h
    exact binds
  · obtain rfl := Outcome.pure_eq_ok.mp h
    intro hybrid legacy hbound
    rw [Std.ExtTreeMap.getElem?_insert] at hbound
    split at hbound
    · rename_i hsame
      rw [← Std.LawfulEqOrd.eq_of_compare hsame]
      exact encoded_not_hexText hencoded
    · exact binds hybrid legacy hbound

lemma bindsAddresses_of_transaction {network : AddressNetwork}
    {bindings bindings' : BTreeMap Str Str} {transaction : TransactionV2}
    (binds : BindsAddresses bindings)
    (h : recordHybridLegacyOwnerBindings bindings transaction network = .ok bindings') :
    BindsAddresses bindings' := by
  simp only [recordHybridLegacyOwnerBindings, Outcome.bind_eq_ok] at h
  obtain ⟨added, -, hfold⟩ := h
  induction added generalizing bindings with
  | nil =>
    obtain rfl := Outcome.pure_eq_ok.mp hfold
    exact binds
  | cons binding added ih =>
    obtain ⟨middle, hbinding, hrest⟩ := Outcome.foldlM_cons_eq_ok.mp hfold
    exact ih (bindsAddresses_of_binding binds hbinding) hrest

/-! ## Reachable ledgers -/

namespace Ledger

/-- The two sorts of owners stay apart. -/
structure NamedApart (ledger : Ledger) : Prop where
  tickets : ∀ ticket ∈ ledger.tickets, HexText ticket.owner
  bindings : BindsAddresses ledger.hybridLegacyOwners

lemma initial_namedApart {ledger : Ledger} (initial : Initial ledger) : ledger.NamedApart := by
  obtain ⟨genesisAllocations, genesis, utxos, _, _, tickets, _, _, hallocations, -, hutxos,
    htickets, rfl⟩ := initial_eq initial
  refine ⟨?_, ?_⟩
  · refine hexText_of_genesisTickets ?_ ?_ htickets
    · intro owner amount hentry
      have hkey : owner ∈ genesisAllocations.keys := by
        rw [← Std.ExtTreeMap.map_fst_toList_eq_keys]
        exact List.mem_map.mpr ⟨_, hentry, rfl⟩
      exact hexText_of_validateAddress (Outcome.forM_eq_ok.mp hallocations owner hkey)
    · intro inputs change amount fee anchor signature htransaction
      simp only [utxosAfterGenesis, Outcome.bind_eq_ok, Mutate.outcome_eq_ok, Prod.exists]
        at hutxos
      obtain ⟨_, _, hrounds, -⟩ := hutxos
      obtain ⟨_, _, hround⟩ := (Mutate.forM_run.mp hrounds).step_of_mem htransaction
      obtain ⟨_, hvalid, -⟩ := Mutate.lift_bind_eq_ok.mp hround
      exact hexText_of_genesisBurn hvalid
  · intro hybrid legacy hbound
    simp [atGenesis] at hbound

lemma accepts_namedApart {ledger ledger' : Ledger} {block : Block} {effects : BlockEffects}
    (accepts : ledger.Accepts block effects ledger') (apart : ledger.NamedApart) :
    ledger'.NamedApart := by
  obtain ⟨seen, middle, last, domain, staged⟩ := stageBlock_eq_ok.mp accepts.staged
  refine ⟨?_, ?_⟩
  · obtain ⟨kept, created, hkept, hcreated, htickets⟩ := ticketsAfterBlock_eq_ok.mp staged.tickets
    rw [accepts.tickets, htickets]
    intro ticket hticket
    rcases List.mem_append.mp hticket with hticket | hticket
    · exact apart.tickets ticket (mem_kept hkept hticket).1
    · refine hexText_of_created ?_ hcreated ticket hticket
      intro inputs change amount fee anchor signature htransaction
      obtain ⟨_, _, hround⟩ := staged.transactions.step_of_mem htransaction
      exact hexText_of_terms (applyBlockTransaction_eq_ok.mp hround).2.1
  · rw [accepts.hybridLegacyOwners]
    refine staged.envelopes.invariant (fun state => BindsAddresses state.1.bindings) ?_
      apart.bindings
    intro before envelope after binds hround
    obtain ⟨_, _, _, -, -, -, -, -, -, hbindings, heq⟩ := applyBlockEnvelope_eq_ok.mp hround
    rw [heq]
    exact bindsAddresses_of_transaction binds hbindings

/-- **Names.** In every reachable ledger tickets have legacy owners, and only addresses are
bound. -/
theorem reachable_namedApart {ledger : Ledger} (reachable : Reachable ledger) :
    ledger.NamedApart := by
  obtain ⟨genesis, events, initial, run⟩ := reachable
  refine run_track (fun _ ledger => ledger.NamedApart) run (initial_namedApart initial) ?_ ?_ ?_
  · intro _ _ _ _ _ apart accepts
    exact accepts_namedApart accepts apart
  · intro _ _ _ apart
    exact ⟨apart.tickets, apart.bindings⟩
  · intro _ ledger recentLimit apart
    refine ⟨?_, ?_⟩
    · rw [retainRecentChainBlocks_tickets]
      exact apart.tickets
    · rw [retainRecentChainBlocks_hybridLegacyOwners]
      exact apart.bindings

omit [Crypto] in
/-- The owner of a ticket is its own identity. -/
lemma NamedApart.identity_of_ticket {ledger : Ledger} (apart : ledger.NamedApart)
    {ticket : BurnTicket} (h : ticket ∈ ledger.tickets) :
    ledger.committeeIdentityForLineageOwner ticket.owner = ticket.owner := by
  unfold committeeIdentityForLineageOwner
  split
  · rfl
  · cases hbound : ledger.hybridLegacyOwners[ticket.owner]? with
    | none => rfl
    | some legacy => exact absurd (apart.tickets ticket h) (apart.bindings _ _ hbound)

end Ledger

end Iuna
