import Iuna.Domain.Chain

/-!
# Envelopes between nodes

The messages of the peer-to-peer protocol, what a receiver accepts, and how a sender packs what it
sends: `types.rs`, the limits of `line_codec.rs`, the block pages of `writer.rs` and the gossip
half of `network.rs`.

An envelope travels as one line of JSON.  The serializer is a library, so the text of an envelope
is a parameter (`SerdeJson`), and what the code relies on is stated as `SerdeJson.Lawful`.
-/

namespace Iuna

/-! ## Limits -/

/-- `MAX_BLOCK_BATCH`, which is `CHAIN_SEGMENT_BLOCKS`. -/
def maxBlockBatch : ℕ := 256

/-- `MAX_OBJECT_REQUESTS`. -/
def maxObjectRequests : ℕ := 128

/-- `MAX_INVENTORY_ITEMS`. -/
def maxInventoryItems : ℕ := 512

/-- `MAX_BLOCK_LOCATOR_HASHES`. -/
def maxBlockLocatorHashes : ℕ := 64

/-- `MAX_PEER_LIST`. -/
def maxPeerList : ℕ := 128

/-- `TRANSACTION_BATCH_LIMIT`. -/
def transactionBatchLimit : ℕ := 128

/-- `MAX_GOSSIP_LINE_BYTES`. -/
def maxGossipLineBytes : ℕ := 8 * 1024 * 1024

/-- `MAX_OUTBOUND_BATCH_BYTES`. -/
def maxOutboundBatchBytes : ℕ := maxGossipLineBytes + 1

/-- `MAX_GOSSIP_OUTBOX_BYTES`. -/
def maxGossipOutboxBytes : ℕ := 16 * 1024 * 1024

/-- `MAX_GOSSIP_OUTBOX_ENTRIES`. -/
def maxGossipOutboxEntries : ℕ := 1024

/-- `IMPORT_REBROADCAST_LIMIT`. -/
def importRebroadcastLimit : ℕ := 128

/-! ## Envelopes -/

/-- `BlockInventory`. -/
structure BlockInventory where
  height : ℕ
  hash : Str
  deriving DecidableEq

/-- `ChainSegmentSummary`. -/
structure ChainSegmentSummary where
  segmentId : ℕ
  endHeight : ℕ
  endBlockHash : Str

/-- `ChainBootstrap`. -/
structure ChainBootstrap where
  genesisAllocations : BTreeMap Str Amount
  vdfRounds : ℕ
  launchProfile : LaunchProfile
  genesisBlock : Block
  height : ℕ
  tipHash : Str
  segmentSummaries : List ChainSegmentSummary

/-- `ProtocolHello`. -/
structure ProtocolHello where
  protocolVersion : ℕ
  capabilities : List Str
  networkId : Str
  genesisHash : Str
  listenAddr : Option Str
  nodeId : Option Str
  height : ℕ
  tipHash : Str
  timeMs : ℕ

/-- `GossipEnvelope`. -/
inductive GossipEnvelope
  | hello (hello : ProtocolHello)
  | peerStatus (height : ℕ) (tipHash : Str) (timeMs : ℕ)
  | chainBootstrapRequest
  | chainBootstrap (bootstrap : ChainBootstrap)
  | blockLocatorRequest (locator : List Str) (limit : ℕ)
  | blockRangeRequest (fromHeight limit : ℕ)
  | blockRequest (hashes : List Str)
  | inventory (blocks : List BlockInventory)
  | transaction (transaction : Transaction)
  | transactions (transactions : List Transaction)
  | transactionV2 (envelope : Str)
  | transactionsV2 (envelopes : List Str)
  | burnBundle (bundle : BurnBundle)
  | burnBundles (bundles : List BurnBundle)
  | burnBundleRequest (height : ℕ) (prevHash : Str) (slots : List ℕ)
  | block (block : Block)
  | blocks (blocks : List Block)
  | peerAnnouncement (address : Str) (nodeId : Option Str)
  | peerVerificationChallenge (address nonce : Str)
  | peerVerificationResponse (address nonce nodeId signature : Str)
  | peerList (peers : List Str)

/-- `slice::chunks`. -/
def chunks {α : Type} (size : ℕ) (items : List α) : List (List α) :=
  (List.range ((items.length + size - 1) / size)).map fun index =>
    (items.drop (index * size)).take size

lemma length_le_of_mem_chunks {α : Type} {size : ℕ} {items chunk : List α}
    (h : chunk ∈ chunks size items) : chunk.length ≤ size := by
  simp only [chunks, List.mem_map] at h
  obtain ⟨index, -, rfl⟩ := h
  exact List.length_take_le _ _

/-! ## Lines -/

/-- The JSON serializer: the text of an envelope and its length, and the length of the text of a
block. -/
class SerdeJson where
  Line : Type
  /-- `line.len()`. -/
  len : Line → ℕ
  /-- `line.trim().is_empty()`. -/
  isBlank : Line → Bool
  /-- `serde_json::to_string`. -/
  toString : GossipEnvelope → Line
  /-- `serde_json::from_str`. -/
  fromStr : Line → Option GossipEnvelope
  /-- The length of `serde_json::to_vec(&block)`. -/
  blockLen : Block → ℕ

/-- What the code relies on: a text is read back, it is never blank, and the elements of an array
are joined by commas. -/
structure SerdeJson.Lawful [SerdeJson] : Prop where
  roundTrip (envelope : GossipEnvelope) : fromStr (SerdeJson.toString envelope) = some envelope
  notBlank (envelope : GossipEnvelope) : isBlank (SerdeJson.toString envelope) = false
  blocksLen (blocks : List Block) : len (SerdeJson.toString (.blocks blocks))
    = len (SerdeJson.toString (.blocks [])) + (blocks.map blockLen).sum + (blocks.length - 1)
  emptyBlocksLen : len (SerdeJson.toString (.blocks [])) ≤ maxGossipLineBytes

/-- The length of the line of an envelope. -/
def GossipEnvelope.encodedLen [SerdeJson] (envelope : GossipEnvelope) : ℕ :=
  SerdeJson.len (SerdeJson.toString envelope)

/-! ## The receiver -/

/-- `ensure_len`. -/
def ensureLen (label : String) (len max : ℕ) : Result Unit :=
  bailIf (max < len) s!"{label} has {len} items, exceeding limit {max}"

/-- `validate_envelope_limits`. -/
def validateEnvelopeLimits : GossipEnvelope → Result Unit
  | .blockRangeRequest _ limit => ensureLen "block range request" limit maxBlockBatch
  | .blockLocatorRequest locator limit => do
    ensureLen "block locator" locator.length maxBlockLocatorHashes
    ensureLen "block locator request" limit maxBlockBatch
  | .blockRequest hashes => ensureLen "block request" hashes.length maxObjectRequests
  | .inventory blocks => ensureLen "block inventory" blocks.length maxInventoryItems
  | .transactions transactions =>
    ensureLen "transaction batch" transactions.length transactionBatchLimit
  | .transactionsV2 envelopes =>
    ensureLen "transaction v2 batch" envelopes.length transactionBatchLimit
  | .burnBundles bundles => ensureLen "burn bundle batch" bundles.length transactionBatchLimit
  | .burnBundleRequest _ _ slots => ensureLen "burn bundle request" slots.length burnCommitteeSize
  | .blocks blocks => ensureLen "block batch" blocks.length maxBlockBatch
  | .peerList peers => ensureLen "peer list" peers.length maxPeerList
  | .hello _ | .chainBootstrapRequest | .chainBootstrap _ | .peerStatus .. | .transaction _
  | .transactionV2 _ | .burnBundle _ | .block _ | .peerAnnouncement ..
  | .peerVerificationChallenge .. | .peerVerificationResponse .. => pure ()

section Lines

variable [SerdeJson]

/-- `parse_envelope`. -/
def parseEnvelope (line : SerdeJson.Line) : Result GossipEnvelope := do
  bailIf (SerdeJson.isBlank line) "empty p2p envelope"
  let envelope ← orError "invalid p2p envelope JSON" (SerdeJson.fromStr line)
  validateEnvelopeLimits envelope
  pure envelope

/-- What a session makes of a line of its peer: the limit of `LimitedLineReader::read_line`, then
`parse_envelope`. -/
def readSessionEnvelope (line : SerdeJson.Line) : Result GossipEnvelope := do
  bailIf (maxGossipLineBytes < SerdeJson.len line)
    s!"p2p message exceeds {maxGossipLineBytes} byte limit"
  parseEnvelope line

/-! ## The sender -/

/-- The order of `prepare_gossip` on inventory items. -/
def inventoryOrder (left right : BlockInventory) : Ordering :=
  (compare left.height right.height).then (compare left.hash right.hash)

/-- The inventory items that an envelope is replaced with, if it announces blocks. -/
def GossipEnvelope.announcedBlocks : GossipEnvelope → Option (List BlockInventory)
  | .block announced => some [⟨announced.height, announced.hash⟩]
  | .blocks batch => some (batch.map fun announced => ⟨announced.height, announced.hash⟩)
  | .inventory items => some items
  | _ => none

/-- The inventory of `prepare_gossip`: the items in order, without neighbours of one hash. -/
def mergedInventory (envelopes : List GossipEnvelope) : List BlockInventory :=
  ((envelopes.filterMap GossipEnvelope.announcedBlocks).flatten.mergeSort fun left right =>
    inventoryOrder left right ≠ .gt).destutter fun left right => left.hash ≠ right.hash

/-- `prepare_gossip`. -/
def prepareGossip (envelopes : List GossipEnvelope) : List GossipEnvelope :=
  envelopes.filter (fun envelope => envelope.announcedBlocks.isNone)
    ++ if mergedInventory envelopes = [] then [] else [.inventory (mergedInventory envelopes)]

/-- The loop of `byte_bounded_gossip_batches`: the finished batches, the open one and its size. -/
def gossipBatchesFrom : List GossipEnvelope → List (List GossipEnvelope × ℕ) →
    List GossipEnvelope → ℕ → Result (List (List GossipEnvelope × ℕ))
  | [], batches, batch, batchBytes =>
    pure (if batch.isEmpty then batches else batches ++ [(batch, batchBytes)])
  | envelope :: envelopes, batches, batch, batchBytes => do
    let encodedBytes := envelope.encodedLen + 1
    bailIf (maxGossipLineBytes + 1 < encodedBytes) <|
      s!"p2p message is {encodedBytes - 1} bytes, exceeding " ++ s!"{maxGossipLineBytes} byte limit"
    if batch.isEmpty = false ∧ maxOutboundBatchBytes < batchBytes + encodedBytes then
      gossipBatchesFrom envelopes (batches ++ [(batch, batchBytes)]) [envelope] encodedBytes
    else
      gossipBatchesFrom envelopes batches (batch ++ [envelope]) (batchBytes + encodedBytes)

/-- `byte_bounded_gossip_batches`. -/
def byteBoundedGossipBatches (envelopes : List GossipEnvelope) :
    Result (List (List GossipEnvelope × ℕ)) :=
  gossipBatchesFrom envelopes [] [] 0

/-- The batches that `broadcast` hands to every session. -/
def broadcastBatches (envelopes : List GossipEnvelope) :
    Result (List (List GossipEnvelope × ℕ)) :=
  byteBoundedGossipBatches (prepareGossip envelopes)

/-- What `broadcast` looks at in a `GossipSession`: whether its peer is banned, whether its
identifier has `INBOUND_SESSION_PREFIX`, the state of its channel, and the permits of
`queue_bytes`. -/
structure GossipSession where
  isBanned : Bool
  isInbound : Bool
  isClosed : Bool
  freeSlots : ℕ
  queueBytes : ℕ

/-- What a broadcast does for a session: the batches that its channel takes, whether it is
disconnected, and the permits of `global_peer_queue_bytes` that are left. -/
structure Delivery where
  sent : List (List GossipEnvelope)
  isDisconnected : Bool
  globalBytes : ℕ

/-- The loop of `broadcast` over the batches: the first batch without a permit or without a place
in the channel is dropped, and with it all later ones. -/
def sendBatches : List (List GossipEnvelope × ℕ) → GossipSession → ℕ → Delivery
  | [], _, globalBytes => { sent := [], isDisconnected := false, globalBytes := globalBytes }
  | (envelopes, encodedBytes) :: batches, session, globalBytes =>
    if globalBytes < encodedBytes then
      { sent := [], isDisconnected := false, globalBytes := globalBytes }
    else if session.queueBytes < encodedBytes then
      { sent := [], isDisconnected := session.isInbound, globalBytes := globalBytes }
    else if session.isClosed then
      { sent := [], isDisconnected := true, globalBytes := globalBytes }
    else if session.freeSlots = 0 then
      { sent := [], isDisconnected := session.isInbound, globalBytes := globalBytes }
    else
      let rest := sendBatches batches { session with
        freeSlots := session.freeSlots - 1
        queueBytes := session.queueBytes - encodedBytes } (globalBytes - encodedBytes)
      { rest with sent := envelopes :: rest.sent }

/-- The loop of `broadcast` over the sessions, but for those of banned peers. -/
def deliverBatches (batches : List (List GossipEnvelope × ℕ)) :
    List GossipSession → ℕ → List Delivery
  | [], _ => []
  | session :: sessions, globalBytes =>
    if session.isBanned then deliverBatches batches sessions globalBytes
    else
      let delivery := sendBatches batches session globalBytes
      delivery :: deliverBatches batches sessions delivery.globalBytes

/-- `broadcast`. -/
def broadcast (envelopes : List GossipEnvelope) (sessions : List GossipSession)
    (globalBytes : ℕ) : Result (List Delivery) := do
  let batches ← broadcastBatches envelopes
  pure (deliverBatches batches sessions globalBytes)

/-- The loop of `byte_bounded_block_page`. -/
def blockPageFrom : List Block → List Block → ℕ → List Block
  | [], page, _ => page
  | block :: blocks, page, encodedLen =>
    let candidateLen := encodedLen + (if page.isEmpty then 0 else 1) + SerdeJson.blockLen block
    if maxGossipLineBytes < candidateLen then page
    else blockPageFrom blocks (page ++ [block]) candidateLen

/-- `byte_bounded_block_page`. -/
def byteBoundedBlockPage (blocks : List Block) : List Block :=
  blockPageFrom blocks [] (GossipEnvelope.blocks []).encodedLen

/-- The answer to a request for blocks: a page of at most `limit` of the blocks found. -/
def blockPage (found : List Block) (limit : ℕ) : GossipEnvelope :=
  .blocks (byteBoundedBlockPage (found.take (min limit maxBlockBatch)))

/-! ## The outbox -/

/-- The gossip that waits to be sent, with the size of each envelope. -/
structure Outbox where
  entries : List (GossipEnvelope × ℕ)
  bytes : ℕ

/-- The loop of `enqueue_gossip` that drops the oldest entries. -/
def makeOutboxRoom (encodedBytes : ℕ) : List (GossipEnvelope × ℕ) → ℕ → Outbox
  | [], bytes => { entries := [], bytes := bytes }
  | entry :: entries, bytes =>
    if maxGossipOutboxEntries ≤ (entry :: entries).length
        ∨ maxGossipOutboxBytes < saturatingAdd bytes encodedBytes then
      makeOutboxRoom encodedBytes entries (bytes - entry.2)
    else { entries := entry :: entries, bytes := bytes }

/-- `enqueue_gossip`. -/
def Outbox.enqueueGossip (outbox : Outbox) (envelope : GossipEnvelope) : Outbox :=
  if maxGossipOutboxBytes < envelope.encodedLen then outbox
  else
    let room := makeOutboxRoom envelope.encodedLen outbox.entries outbox.bytes
    { entries := room.entries ++ [(envelope, envelope.encodedLen)]
      bytes := saturatingAdd room.bytes envelope.encodedLen }

end Lines

/-! ## Peers -/

/-- `PeerDirection`. -/
inductive PeerDirection
  | outbound
  | inbound
  | discovered
  deriving DecidableEq

/-- The part of `PeerInfo` that decides which peers are exchanged. -/
structure PeerInfo where
  address : Str
  direction : PeerDirection
  bannedUntilMs : Option ℕ

/-- `is_banned_at`. -/
def PeerInfo.isBannedAt (peer : PeerInfo) (nowMs : ℕ) : Bool :=
  peer.bannedUntilMs.any fun bannedUntil => nowMs < bannedUntil

/-- `MAX_TOTAL_PEERS`. -/
def maxTotalPeers : ℕ := 512

/-- `PeerBook`. -/
abbrev PeerBook := BTreeMap Str PeerInfo

/-- `add_peer`. -/
def PeerBook.addPeer (book : PeerBook) (address : Str) : PeerBook :=
  match book[address]? with
  | some peer => book.insert address { peer with direction := .outbound }
  | none =>
    if maxTotalPeers ≤ book.size then book
    else book.insert address { address := address, direction := .outbound, bannedUntilMs := none }

/-- `from_addresses`. -/
def PeerBook.fromAddresses (addresses : List Str) : PeerBook :=
  addresses.foldl PeerBook.addPeer ∅

/-- `outbound_addresses_at`. -/
def PeerBook.outboundAddressesAt (book : PeerBook) (nowMs : ℕ) : List Str :=
  ((book.toList.map Prod.snd).filter fun peer =>
    peer.direction = .outbound ∧ peer.isBannedAt nowMs = false).map PeerInfo.address

/-- `addresses_except`. -/
def PeerBook.addressesExcept (book : PeerBook) (excluded : Str) (nowMs : ℕ) : List Str :=
  (book.outboundAddressesAt nowMs).filter fun address => address ≠ excluded

/-- What `peer_exchange` reads of the node's own addresses: the advertised one, which addresses
are socket addresses, and which of them are the node's own. -/
structure OwnAddresses where
  advertised : Option Str
  isSocketAddr : Str → Bool
  isSelfPeerAddress : Str → Bool

/-- The addresses of `peer_exchange` after the node's own. -/
def exchangedPeers (own : OwnAddresses) (book : PeerBook) (nowMs : ℕ) : List Str :=
  ((book.addressesExcept (own.advertised.getD []) nowMs).filter own.isSocketAddr).filter
    fun peer => own.isSelfPeerAddress peer = false

/-- `peer_exchange`. -/
def peerExchange (own : OwnAddresses) (book : PeerBook) (nowMs : ℕ) : GossipEnvelope :=
  .peerList (own.advertised.toList ++ exchangedPeers own book nowMs)

end Iuna
