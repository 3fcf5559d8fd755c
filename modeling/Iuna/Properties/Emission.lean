import Iuna.App.Node
import Iuna.Properties.Broadcast
import Iuna.Properties.Launch

/-!
# What a node emits

A peer that runs the same code accepts an envelope exactly if its line and its lists respect the
peer's limits (`accepted_iff`).  The block pages always do.  The peer list, the merged inventory
and the lines of the gossip are not bounded by the limits of the receiver where they are made, and
what does not fit in the budgets of a broadcast is dropped, so whether everything that a node emits
is sent and accepted depends on the sizes of what goes into it
(`Emission.accepted_iff_withinLimits`).
-/

namespace Iuna

open Outcome

section Emissions

variable [SerdeJson]

/-- A peer accepts an envelope if it reads it back from the line. -/
def GossipEnvelope.Accepted (envelope : GossipEnvelope) : Prop :=
  readSessionEnvelope (SerdeJson.toString envelope) = .ok envelope

lemma accepted_iff (lawful : SerdeJson.Lawful) {envelope : GossipEnvelope} :
    envelope.Accepted ↔
      envelope.encodedLen ≤ maxGossipLineBytes ∧ validateEnvelopeLimits envelope = .ok () := by
  simp only [GossipEnvelope.Accepted, readSessionEnvelope, parseEnvelope, lawful.notBlank,
    lawful.roundTrip, orError, bind_eq_ok, bailIf_eq_ok, pure_eq_ok, not_lt,
    GossipEnvelope.encodedLen]
  constructor
  · rintro ⟨_, hlen, _, -, _, -, _, hlimits, rfl⟩
    exact ⟨hlen, hlimits⟩
  · rintro ⟨hlen, hlimits⟩
    exact ⟨⟨⟩, hlen, ⟨⟩, by simp, envelope, rfl, (), hlimits, rfl⟩

omit [SerdeJson] in
lemma ensureLen_eq_ok {label : String} {len max : ℕ} : ensureLen label len max = .ok () ↔ len ≤ max := by
  simp [ensureLen]

/-! ## Block pages -/

lemma blocks_encodedLen_snoc (lawful : SerdeJson.Lawful) (page : List Block) (block : Block) :
    (GossipEnvelope.blocks (page ++ [block])).encodedLen =
      (GossipEnvelope.blocks page).encodedLen + (if page.isEmpty then 0 else 1)
        + SerdeJson.blockLen block := by
  have hsnoc := lawful.blocksLen (page ++ [block])
  have hpage := lawful.blocksLen page
  simp only [GossipEnvelope.encodedLen]
  cases page with
  | nil =>
    simp only [List.nil_append, List.map_cons, List.map_nil, List.sum_cons, List.sum_nil,
      List.length_singleton] at hsnoc
    simp only [List.nil_append, List.isEmpty_nil, if_true]
    omega
  | cons first rest =>
    simp only [List.map_append, List.sum_append, List.length_append, List.map_cons, List.map_nil,
      List.sum_cons, List.sum_nil, List.length_cons, List.length_nil] at hsnoc hpage
    simp only [List.isEmpty_cons, Bool.false_eq_true, if_false]
    omega

/-- A page extends what it starts with by a prefix of the blocks and stays within a line. -/
lemma blockPageFrom_spec (lawful : SerdeJson.Lawful) (blocks : List Block) {page : List Block}
    (fits : (GossipEnvelope.blocks page).encodedLen ≤ maxGossipLineBytes) :
    ∃ added, blockPageFrom blocks page (GossipEnvelope.blocks page).encodedLen = page ++ added
      ∧ added <+: blocks ∧ (GossipEnvelope.blocks (page ++ added)).encodedLen ≤ maxGossipLineBytes := by
  induction blocks generalizing page with
  | nil => exact ⟨[], by simp [blockPageFrom], List.nil_prefix, by simpa using fits⟩
  | cons block blocks ih =>
    rw [blockPageFrom, ← blocks_encodedLen_snoc lawful]
    by_cases hfull : maxGossipLineBytes < (GossipEnvelope.blocks (page ++ [block])).encodedLen
    · rw [if_pos hfull]
      exact ⟨[], by simp, List.nil_prefix, by simpa using fits⟩
    · rw [if_neg hfull]
      obtain ⟨added, hpage, hprefix, hlen⟩ := ih (not_lt.mp hfull)
      refine ⟨block :: added, ?_, ?_, ?_⟩
      · rw [hpage, List.append_assoc, List.singleton_append]
      · exact (List.prefix_cons_inj block).mpr hprefix
      · rwa [List.append_assoc, List.singleton_append] at hlen

theorem blockPage_accepted (lawful : SerdeJson.Lawful) (found : List Block) (limit : ℕ) :
    (blockPage found limit).Accepted := by
  obtain ⟨added, hpage, hprefix, hlen⟩ := blockPageFrom_spec lawful
    (found.take (min limit maxBlockBatch)) lawful.emptyBlocksLen
  have heq : blockPage found limit = .blocks added := congrArg GossipEnvelope.blocks hpage
  rw [heq, accepted_iff lawful]
  refine ⟨hlen, ensureLen_eq_ok.mpr ?_⟩
  calc added.length ≤ (found.take (min limit maxBlockBatch)).length := hprefix.length_le
    _ ≤ min limit maxBlockBatch := List.length_take_le _ _
    _ ≤ maxBlockBatch := min_le_right _ _

/-! ## The outbox -/

omit [SerdeJson] in
/-- Making room keeps everything exactly if there is nothing to drop or nothing need be dropped. -/
lemma makeOutboxRoom_entries_eq_iff {encodedBytes bytes : ℕ} {entries : List (GossipEnvelope × ℕ)} :
    (makeOutboxRoom encodedBytes entries bytes).entries = entries ↔
      entries = [] ∨ entries.length < maxGossipOutboxEntries
        ∧ saturatingAdd bytes encodedBytes ≤ maxGossipOutboxBytes := by
  have hsublist : ∀ (entries : List (GossipEnvelope × ℕ)) (bytes : ℕ),
      (makeOutboxRoom encodedBytes entries bytes).entries <:+ entries := by
    intro entries
    induction entries with
    | nil => exact fun _ => List.suffix_rfl
    | cons entry entries ih =>
      intro bytes
      rw [makeOutboxRoom]
      split
      · exact (ih _).trans (List.suffix_cons _ _)
      · exact List.suffix_rfl
  cases entries with
  | nil => simp [makeOutboxRoom]
  | cons entry entries =>
    rw [makeOutboxRoom]
    split
    · rename_i hdrop
      constructor
      · intro heq
        have hlen := (hsublist entries (bytes - entry.2)).length_le
        rw [heq, List.length_cons] at hlen
        omega
      · rintro (hnil | ⟨hcount, hbytes⟩)
        · cases hnil
        · omega
    · rename_i hkeep
      rw [not_or, not_le, not_lt] at hkeep
      simp only [true_iff]
      exact .inr hkeep

/-- What is queued stays when an envelope is enqueued that the outbox takes: a large envelope must
not push out the others. -/
def Outbox.KeepsQueued (outbox : Outbox) (envelope : GossipEnvelope) : Prop :=
  envelope.encodedLen ≤ maxGossipOutboxBytes → outbox.entries.length < maxGossipOutboxEntries →
    (outbox.enqueueGossip envelope).entries
      = outbox.entries ++ [(envelope, envelope.encodedLen)]

theorem keepsQueued_iff (outbox : Outbox) (envelope : GossipEnvelope) :
    outbox.KeepsQueued envelope ↔
      maxGossipOutboxBytes < envelope.encodedLen
        ∨ maxGossipOutboxEntries ≤ outbox.entries.length ∨ outbox.entries = []
        ∨ saturatingAdd outbox.bytes envelope.encodedLen ≤ maxGossipOutboxBytes := by
  by_cases hlarge : maxGossipOutboxBytes < envelope.encodedLen
  · exact iff_of_true (fun hfits => absurd hfits (not_le.mpr hlarge)) (.inl hlarge)
  by_cases hcount : maxGossipOutboxEntries ≤ outbox.entries.length
  · exact iff_of_true (fun _ hroom => absurd hroom (not_lt.mpr hcount)) (.inr (.inl hcount))
  have hentries : (outbox.enqueueGossip envelope).entries
      = (makeOutboxRoom envelope.encodedLen outbox.entries outbox.bytes).entries
        ++ [(envelope, envelope.encodedLen)] := by
    rw [Outbox.enqueueGossip, if_neg hlarge]
  have hkeeps := @makeOutboxRoom_entries_eq_iff envelope.encodedLen outbox.bytes outbox.entries
  simp only [Outbox.KeepsQueued, hentries, List.append_cancel_right_eq, hkeeps, not_lt.mp hlarge,
    not_le.mp hcount, forall_const, true_and, hlarge, hcount, false_or]

/-! ## Everything a node emits -/

/-- What the emissions of a node are made from: its state, its own addresses and peers, a queue of
gossip, the sessions and the permits of all of them when it is broadcast, the blocks found for a
request, and an envelope to be enqueued. -/
structure Emission where
  node : Node
  own : OwnAddresses
  book : PeerBook
  nowMs : ℕ
  queue : List GossipEnvelope
  sessions : List GossipSession
  globalBytes : ℕ
  found : List Block
  limit : ℕ
  enqueued : GossipEnvelope

namespace Emission

variable [Crypto]

/-- Everything is accepted by a peer, and nothing that is queued is dropped unsent: the broadcast
hands all batches to each session that it serves, and the outbox keeps what it has. -/
structure Accepted (emission : Emission) : Prop where
  peerExchange : (peerExchange emission.own emission.book emission.nowMs).Accepted
  mempoolGossip : ∀ envelope ∈ emission.node.mempoolGossip, envelope.Accepted
  blockPage : (blockPage emission.found emission.limit).Accepted
  prepared : ∀ envelope ∈ prepareGossip emission.queue, envelope.Accepted
  broadcast : ∃ batches deliveries, broadcastBatches emission.queue = .ok batches
    ∧ batches.flatMap Prod.fst = prepareGossip emission.queue
    ∧ Iuna.broadcast emission.queue emission.sessions emission.globalBytes = .ok deliveries
    ∧ ∀ delivery ∈ deliveries, delivery.sent = batches.map Prod.fst
  outbox : emission.node.outbox.KeepsQueued emission.enqueued

/-- The sizes and budgets that decide it. -/
structure WithinLimits (emission : Emission) : Prop where
  peers : emission.own.advertised.toList.length
    + (exchangedPeers emission.own emission.book emission.nowMs).length ≤ maxPeerList
  peerLine : (Iuna.peerExchange emission.own emission.book emission.nowMs).encodedLen
    ≤ maxGossipLineBytes
  transactionLines : ∀ chunk ∈ chunks transactionBatchLimit emission.node.ledger.pending,
    (GossipEnvelope.transactions chunk).encodedLen ≤ maxGossipLineBytes
  envelopeLines : ∀ envelope ∈ (emission.node.pendingTransactionV2Envelopes).toOption.getD [],
    (GossipEnvelope.transactionV2 envelope).encodedLen ≤ maxGossipLineBytes
  bundleLines : ∀ chunk ∈ chunks transactionBatchLimit emission.node.usableBurnBundles,
    (GossipEnvelope.burnBundles chunk).encodedLen ≤ maxGossipLineBytes
  inventory : (mergedInventory emission.queue).length ≤ maxInventoryItems
  queueLines : ∀ envelope ∈ prepareGossip emission.queue,
    envelope.encodedLen ≤ maxGossipLineBytes
  queueLists : ∀ envelope ∈ emission.queue, envelope.announcedBlocks = none →
    validateEnvelopeLimits envelope = .ok ()
  capacity : HasCapacity (prepareGossip emission.queue) emission.sessions emission.globalBytes
  outbox : maxGossipOutboxBytes < emission.enqueued.encodedLen
    ∨ maxGossipOutboxEntries ≤ emission.node.outbox.entries.length
    ∨ emission.node.outbox.entries = []
    ∨ saturatingAdd emission.node.outbox.bytes emission.enqueued.encodedLen
      ≤ maxGossipOutboxBytes

omit [Crypto] [SerdeJson] in
/-- The prepared gossip respects the limits on lists exactly if its inventory and the envelopes
that pass through do. -/
lemma prepareGossip_limits_iff (queue : List GossipEnvelope) :
    (∀ envelope ∈ prepareGossip queue, validateEnvelopeLimits envelope = .ok ()) ↔
      (mergedInventory queue).length ≤ maxInventoryItems
        ∧ ∀ envelope ∈ queue, envelope.announcedBlocks = none →
          validateEnvelopeLimits envelope = .ok () := by
  have hinventory : validateEnvelopeLimits (.inventory (mergedInventory queue)) = .ok () ↔
      (mergedInventory queue).length ≤ maxInventoryItems := ensureLen_eq_ok
  by_cases hempty : mergedInventory queue = []
  · simp [prepareGossip, hempty]
  · simp only [prepareGossip, if_neg hempty, List.mem_append, List.mem_filter, List.mem_singleton,
      Option.isNone_iff_eq_none]
    constructor
    · intro h
      exact ⟨hinventory.mp (h _ (.inr rfl)), fun envelope hmem hnone => h _ (.inl ⟨hmem, hnone⟩)⟩
    · rintro ⟨hlen, hpass⟩ envelope (⟨hmem, hnone⟩ | rfl)
      · exact hpass envelope hmem hnone
      · exact hinventory.mpr hlen

lemma mempoolGossip_accepted_iff (lawful : SerdeJson.Lawful) (node : Node) :
    (∀ envelope ∈ node.mempoolGossip, envelope.Accepted) ↔
      (∀ chunk ∈ chunks transactionBatchLimit node.ledger.pending,
        (GossipEnvelope.transactions chunk).encodedLen ≤ maxGossipLineBytes)
      ∧ (∀ envelope ∈ (node.pendingTransactionV2Envelopes).toOption.getD [],
        (GossipEnvelope.transactionV2 envelope).encodedLen ≤ maxGossipLineBytes)
      ∧ ∀ chunk ∈ chunks transactionBatchLimit node.usableBurnBundles,
        (GossipEnvelope.burnBundles chunk).encodedLen ≤ maxGossipLineBytes := by
  have htransactions : ∀ chunk ∈ chunks transactionBatchLimit node.ledger.pending,
      validateEnvelopeLimits (.transactions chunk) = .ok () := fun chunk hchunk =>
    ensureLen_eq_ok.mpr (length_le_of_mem_chunks hchunk)
  have hbundles : ∀ chunk ∈ chunks transactionBatchLimit node.usableBurnBundles,
      validateEnvelopeLimits (.burnBundles chunk) = .ok () := fun chunk hchunk =>
    ensureLen_eq_ok.mpr (length_le_of_mem_chunks hchunk)
  have henvelope (envelope : Str) : validateEnvelopeLimits (.transactionV2 envelope) = .ok () := rfl
  simp only [Node.mempoolGossip, List.forall_mem_append, List.forall_mem_map, accepted_iff lawful,
    henvelope, and_true, and_assoc]
  refine and_congr ?_ (and_congr Iff.rfl ?_)
  · exact forall₂_congr fun chunk hchunk => and_iff_left (htransactions chunk hchunk)
  · exact forall₂_congr fun chunk hchunk => and_iff_left (hbundles chunk hchunk)

end Emission

end Emissions

/-! ## A full peer book -/

/-- The peers of a book are outbound, not banned, and found under their addresses. -/
def PeerBook.AllOutbound (book : PeerBook) : Prop :=
  ∀ (address : Str) (peer : PeerInfo), book[address]? = some peer →
    peer = ⟨address, .outbound, none⟩

lemma addPeer_allOutbound {book : PeerBook} (all : book.AllOutbound) (added : Str) :
    (book.addPeer added).AllOutbound := by
  intro address peer hpeer
  unfold PeerBook.addPeer at hpeer
  split at hpeer
  · rename_i found hfound
    rw [Std.ExtTreeMap.getElem?_insert] at hpeer
    split at hpeer
    · rename_i heq
      rw [Std.LawfulEqCmp.compare_eq_iff_eq] at heq
      have hsame := all added found hfound
      subst heq hsame
      exact (Option.some.inj hpeer).symm
    · exact all address peer hpeer
  · split at hpeer
    · exact all address peer hpeer
    · rw [Std.ExtTreeMap.getElem?_insert] at hpeer
      split at hpeer
      · rename_i heq
        rw [Std.LawfulEqCmp.compare_eq_iff_eq] at heq
        subst heq
        exact (Option.some.inj hpeer).symm
      · exact all address peer hpeer

/-- A new address is added while the book has room. -/
lemma addPeer_of_room {book : PeerBook} {added : Str} (isNew : added ∉ book)
    (room : book.size < maxTotalPeers) :
    (book.addPeer added).size = book.size + 1
      ∧ ∀ address, address ∈ book.addPeer added ↔ address = added ∨ address ∈ book := by
  have hnone : book[added]? = none := Std.ExtTreeMap.getElem?_eq_none isNew
  unfold PeerBook.addPeer
  rw [hnone]
  simp only [if_neg (not_le.mpr room)]
  constructor
  · rw [Std.ExtTreeMap.size_insert, if_neg (by simpa using isNew)]
  · intro address
    rw [Std.ExtTreeMap.mem_insert, Std.LawfulEqCmp.compare_eq_iff_eq, eq_comm]

/-- Adding different addresses to a book with room for all of them. -/
lemma foldl_addPeer_spec {addresses : List Str} {book : PeerBook} (all : book.AllOutbound)
    (nodup : addresses.Nodup) (areNew : ∀ address ∈ addresses, address ∉ book)
    (room : book.size + addresses.length ≤ maxTotalPeers) :
    (addresses.foldl PeerBook.addPeer book).AllOutbound
      ∧ (addresses.foldl PeerBook.addPeer book).size = book.size + addresses.length
      ∧ ∀ address, address ∈ addresses.foldl PeerBook.addPeer book ↔
        address ∈ addresses ∨ address ∈ book := by
  induction addresses generalizing book with
  | nil => exact ⟨all, rfl, by simp⟩
  | cons first rest ih =>
    rw [List.nodup_cons] at nodup
    rw [List.forall_mem_cons] at areNew
    rw [List.length_cons] at room
    obtain ⟨hsize, hmem⟩ := addPeer_of_room areNew.1 (by omega)
    have hnew : ∀ address ∈ rest, address ∉ book.addPeer first := by
      intro address haddress hfound
      rcases (hmem address).mp hfound with rfl | hfound
      · exact nodup.1 haddress
      · exact areNew.2 address haddress hfound
    obtain ⟨hall, hsizes, hmems⟩ := ih (addPeer_allOutbound all first) nodup.2 hnew (by omega)
    refine ⟨hall, ?_, ?_⟩
    · rw [List.foldl_cons, hsizes, hsize, List.length_cons]
      omega
    · intro address
      rw [List.foldl_cons, hmems, hmem, List.mem_cons]
      tauto

/-- A book made of different addresses gives all of them out. -/
lemma fromAddresses_outbound {addresses : List Str} (nodup : addresses.Nodup)
    (room : addresses.length ≤ maxTotalPeers) (nowMs : ℕ) :
    ((PeerBook.fromAddresses addresses).outboundAddressesAt nowMs).length = addresses.length
      ∧ ∀ address ∈ (PeerBook.fromAddresses addresses).outboundAddressesAt nowMs,
        address ∈ addresses := by
  have hempty : PeerBook.AllOutbound ∅ := by
    intro address peer h
    simp at h
  obtain ⟨hall, hsize, hmem⟩ :=
    foldl_addPeer_spec hempty nodup (by simp) (by simpa using room)
  have hentry : ∀ entry ∈ (PeerBook.fromAddresses addresses).toList,
      entry.2 = ⟨entry.1, .outbound, none⟩ ∧ entry.1 ∈ addresses := by
    intro entry hentry
    rw [Std.ExtTreeMap.mem_toList_iff_getElem?_eq_some] at hentry
    refine ⟨hall _ _ hentry, ?_⟩
    have hfound : entry.1 ∈ PeerBook.fromAddresses addresses := by
      rw [Std.ExtTreeMap.mem_iff_isSome_getElem?, hentry]
      rfl
    simpa using (hmem entry.1).mp hfound
  have hfilter : ((PeerBook.fromAddresses addresses).toList.map Prod.snd).filter (fun peer =>
      peer.direction = .outbound ∧ peer.isBannedAt nowMs = false)
        = (PeerBook.fromAddresses addresses).toList.map Prod.snd := by
    rw [List.filter_eq_self, List.forall_mem_map]
    intro entry hmem
    rw [(hentry entry hmem).1]
    rfl
  rw [PeerBook.outboundAddressesAt, hfilter]
  constructor
  · rw [List.length_map, List.length_map, Std.ExtTreeMap.length_toList]
    exact hsize.trans (by simp)
  · simp only [List.mem_map, exists_exists_and_eq_and]
    rintro address ⟨entry, hmem, rfl⟩
    rw [(hentry entry hmem).1]
    exact (hentry entry hmem).2

namespace Toy

attribute [local instance] crypto

/-- The length of the text of an envelope with a list, field by field. -/
def jsonLen : GossipEnvelope → ℕ
  | .blocks blocks => jsonObjectSize [("type", jsonStringSize (str "blocks")),
      ("blocks", jsonArraySize (blocks.map fun block => block.hash.length))]
  | .inventory items => jsonObjectSize [("type", jsonStringSize (str "inventory")),
      ("blocks", jsonArraySize (items.map fun item => jsonObjectSize
        [("height", jsonNumberSize item.height), ("hash", jsonStringSize item.hash)]))]
  | .transactions transactions => jsonObjectSize [("type", jsonStringSize (str "transactions")),
      ("transactions", jsonArraySize (transactions.map Transaction.jsonSize))]
  | .transactionV2 envelope => jsonObjectSize [("type", jsonStringSize (str "transaction_v2")),
      ("envelope", jsonStringSize envelope)]
  | .burnBundles bundles => jsonObjectSize [("type", jsonStringSize (str "burn_bundles")),
      ("bundles", jsonArraySize (bundles.map BurnBundle.serializedSizeBytes))]
  | .peerList peers => jsonObjectSize [("type", jsonStringSize (str "peer_list")),
      ("peers", jsonArraySize (peers.map jsonStringSize))]
  | .chainBootstrapRequest =>
    jsonObjectSize [("type", jsonStringSize (str "chain_bootstrap_request"))]
  | _ => 0

/-- A serializer whose lines are the envelopes themselves. -/
@[reducible]
def serdeJson : SerdeJson where
  Line := GossipEnvelope
  len := jsonLen
  isBlank := fun _ => false
  toString := id
  fromStr := some
  blockLen := fun block => block.hash.length

attribute [local instance] serdeJson

lemma serdeJson_lawful : SerdeJson.Lawful where
  roundTrip := fun _ => rfl
  notBlank := fun _ => rfl
  blocksLen := by
    intro blocks
    show jsonLen (.blocks blocks) = jsonLen (.blocks []) + _ + _
    simp only [jsonLen, jsonObjectSize, jsonArraySize, List.map_cons, List.map_nil, List.sum_cons,
      List.sum_nil, List.length_map, List.length_nil, List.length_cons]
    show _ = _ + (blocks.map fun block : Block => block.hash.length).sum + _
    omega
  emptyBlocksLen := by decide

def node (ledger : Ledger) : Node where
  ledger := ledger
  networkMigrationFrom := none
  burnBundles := ∅
  equivocatedBurnBundleSlots := ∅
  outbox := { entries := [], bytes := 0 }

def ownAddresses : OwnAddresses where
  advertised := some (str "203.0.113.1:9444")
  isSocketAddr := fun _ => true
  isSelfPeerAddress := fun _ => false

/-- A session of an inbound peer with one place in its channel and permits for one short line. -/
def session : GossipSession where
  isBanned := false
  isInbound := true
  isClosed := false
  freeSlots := 1
  queueBytes := 64

/-- What a node with a given ledger and peer book emits, with one envelope and one session. -/
def emission (ledger : Ledger) (book : PeerBook) : Emission where
  node := node ledger
  own := ownAddresses
  book := book
  nowMs := 0
  queue := [.chainBootstrapRequest]
  sessions := [session]
  globalBytes := 64
  found := []
  limit := 0
  enqueued := .chainBootstrapRequest

lemma genesis_pools : genesis.toPools = .empty := by
  obtain ⟨_, _, _, _, _, _, _, _, -, -, -, -, hgenesis⟩ := Ledger.initial_eq genesis_initial
  rw [hgenesis]
  rfl

lemma exchangedPeers_empty : exchangedPeers ownAddresses ∅ 0 = [] := by
  have hlist : (∅ : PeerBook).toList = [] :=
    List.eq_nil_of_length_eq_zero (by rw [Std.ExtTreeMap.length_toList, Std.ExtTreeMap.size_empty])
  rw [exchangedPeers, PeerBook.addressesExcept, PeerBook.outboundAddressesAt, hlist]
  rfl

lemma chunks_nil {α : Type} : chunks transactionBatchLimit ([] : List α) = [] := by
  simp [chunks, transactionBatchLimit]

lemma mergedInventory_request : mergedInventory [.chainBootstrapRequest] = [] := by
  have hnone : [GossipEnvelope.chainBootstrapRequest].filterMap GossipEnvelope.announcedBlocks = [] :=
    rfl
  simp only [mergedInventory, hnone, List.flatten_nil, List.mergeSort_nil]
  rfl

lemma prepareGossip_request :
    prepareGossip [.chainBootstrapRequest] = [.chainBootstrapRequest] := by
  rw [prepareGossip, mergedInventory_request]
  rfl

/-- Without peers and pending transactions everything is within the limits. -/
lemma emission_withinLimits {ledger : Ledger} (empty : ledger.toPools = .empty) :
    (emission ledger ∅).WithinLimits where
  peers := by
    show ownAddresses.advertised.toList.length + (exchangedPeers ownAddresses ∅ 0).length
      ≤ maxPeerList
    rw [exchangedPeers_empty]
    decide
  peerLine := by
    show (peerExchange ownAddresses ∅ 0).encodedLen ≤ maxGossipLineBytes
    rw [peerExchange, exchangedPeers_empty]
    decide
  transactionLines := by
    have hpending : (node ledger).ledger.pending = [] := congrArg Pools.pending empty
    intro chunk hchunk
    rw [show (emission ledger ∅).node.ledger.pending = [] from hpending, chunks_nil] at hchunk
    cases hchunk
  envelopeLines := by
    have hpending : (node ledger).ledger.pendingV2 = [] := congrArg Pools.pendingV2 empty
    have hnone : (node ledger).pendingTransactionV2Envelopes.toOption.getD [] = [] := by
      rw [Node.pendingTransactionV2Envelopes, hpending]
      cases (node ledger).ledger.transactionV2Domain <;> rfl
    intro envelope hmem
    rw [show (emission ledger ∅).node.pendingTransactionV2Envelopes.toOption.getD [] = []
      from hnone] at hmem
    cases hmem
  bundleLines := by
    have hlist : (node ledger).burnBundles.toList = [] := List.eq_nil_of_length_eq_zero
      (by rw [Std.ExtTreeMap.length_toList]; exact Std.ExtTreeMap.size_empty)
    have husable : (node ledger).usableBurnBundles = [] := by
      simp [Node.usableBurnBundles, hlist]
    intro chunk hchunk
    rw [show (emission ledger ∅).node.usableBurnBundles = [] from husable, chunks_nil] at hchunk
    cases hchunk
  inventory := by
    show (mergedInventory [.chainBootstrapRequest]).length ≤ maxInventoryItems
    rw [mergedInventory_request]
    decide
  queueLines := by
    show ∀ envelope ∈ prepareGossip [.chainBootstrapRequest], _
    rw [prepareGossip_request]
    decide
  queueLists := by
    intro envelope hmem _
    obtain rfl := List.mem_singleton.mp hmem
    rfl
  capacity := by
    show HasCapacity (prepareGossip [.chainBootstrapRequest]) [session] 64
    rw [prepareGossip_request]
    have hbytes : lineBytes [.chainBootstrapRequest] ≤ 64 := by decide
    exact {
      global := by decide
      own := by decide
      opened := by decide
      slots := fun served hmem => by
        obtain rfl := List.mem_singleton.mp hmem
        exact ⟨[[.chainBootstrapRequest]], rfl, by decide, by decide⟩ }
  outbox := .inr (.inr (.inl rfl))

lemma peers_of_accepted {ledger : Ledger} {book : PeerBook}
    (accepted : (emission ledger book).Accepted) :
    ownAddresses.advertised.toList.length + (exchangedPeers ownAddresses book 0).length
      ≤ maxPeerList := by
  have hlist : validateEnvelopeLimits (peerExchange ownAddresses book 0) = .ok () :=
    ((accepted_iff serdeJson_lawful).mp accepted.peerExchange).2
  rw [← List.length_append]
  exact ensureLen_eq_ok.mp hlist

/-- The addresses of a network. -/
def peers : List Str :=
  (List.range 128).map fun host => str "198.51.100." ++ decimal host ++ str ":9444"

lemma peers_nodup : peers.Nodup := by
  apply List.Nodup.map ?_ List.nodup_range
  intro host host' heq
  have hdecimal : decimal host = decimal host' := by
    simpa only [List.append_cancel_right_eq, List.append_cancel_left_eq] using heq
  have hread := congrArg (fun digits => Nat.ofDigitChars 10 digits 0) hdecimal
  simpa only [decimal, Nat.ofDigitChars_toDigits (by decide : 1 < 10) (le_refl 10)] using hread

end Toy

end Iuna
