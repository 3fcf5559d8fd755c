import Iuna.App.Gossip

/-!
# The peer book

`peer_book.rs` with all that it keeps of a peer: the caps on peers that were only heard of, the
scores and bans of peers that misbehave, and the exchange of one address of a peer for another.

Which texts are socket addresses is decided by the standard library, so the parser is a parameter
(`SocketAddrs`).
-/

namespace Iuna

/-! ## Addresses -/

/-- `IpAddr`: four octets, or eight segments. -/
inductive IpAddr
  | v4 (octets : Vector UInt8 4)
  | v6 (segments : Vector UInt16 8)
  deriving DecidableEq

/-- `SocketAddr`. -/
structure SocketAddr where
  ip : IpAddr
  port : UInt16
  deriving DecidableEq

/-- `str::parse::<SocketAddr>`. -/
class SocketAddrs where
  parse : Str → Option SocketAddr

/-- What `same_discovery_group` compares: two octets, or two segments. -/
inductive DiscoveryGroup
  | v4 (first second : UInt8)
  | v6 (first second : UInt16)
  deriving DecidableEq

/-- The group of an address. -/
def IpAddr.discoveryGroup : IpAddr → DiscoveryGroup
  | .v4 octets => .v4 octets[0] octets[1]
  | .v6 segments => .v6 segments[0] segments[1]

/-- `same_discovery_group`. -/
def sameDiscoveryGroup (left right : SocketAddr) : Bool :=
  left.ip.discoveryGroup = right.ip.discoveryGroup

/-! ## Limits -/

/-- `MAX_DISCOVERED_PEERS`. -/
def maxDiscoveredPeers : ℕ := 256

/-- `MAX_DISCOVERED_PEERS_PER_IP`. -/
def maxDiscoveredPeersPerIp : ℕ := 4

/-- `MAX_DISCOVERED_PEERS_PER_IPV4_PREFIX`, which is `MAX_DISCOVERED_PEERS_PER_IPV6_PREFIX`. -/
def maxDiscoveredPeersPerPrefix : ℕ := 16

/-- `PEER_MISBEHAVIOR_BAN_SCORE`. -/
def peerMisbehaviorBanScore : ℕ := 3

/-- `PEER_MISBEHAVIOR_BAN_MS`. -/
def peerMisbehaviorBanMs : ℕ := 10 * 60 * 1000

/-- `PEER_CLOCK_OFFSET_ACCEPTANCE_MS`. -/
def peerClockOffsetAcceptanceMs : ℕ := 10 * 60 * 1000

/-- `PEER_GOOD_CONNECTION_MAX_AGE_MS`. -/
def peerGoodConnectionMaxAgeMs : ℕ := 20 * 60 * 1000

/-! ## Peers -/

/-- `PeerInfo`, with the fields that matter to the peer book only. -/
structure PeerEntry extends PeerInfo where
  messagesSent : ℕ
  messagesReceived : ℕ
  lastKnownHeight : Option ℕ
  lastKnownTipHash : Option Str
  lastHello : Option ProtocolHello
  lastClockOffsetMs : Option ℤ
  lastClockOffsetAccepted : Option Bool
  lastClockObservedMs : Option ℕ
  lastError : Option Str
  lastContactMs : Option ℕ
  lastSuccessMs : Option ℕ
  lastErrorMs : Option ℕ
  misbehaviorScore : ℕ
  banReason : Option Str

namespace PeerEntry

/-- `PeerInfo::new`. -/
def new (address : Str) (direction : PeerDirection) : PeerEntry where
  address := address
  direction := direction
  bannedUntilMs := none
  messagesSent := 0
  messagesReceived := 0
  lastKnownHeight := none
  lastKnownTipHash := none
  lastHello := none
  lastClockOffsetMs := none
  lastClockOffsetAccepted := none
  lastClockObservedMs := none
  lastError := none
  lastContactMs := none
  lastSuccessMs := none
  lastErrorMs := none
  misbehaviorScore := 0
  banReason := none

/-- `is_good_connection_at`. -/
def isGoodConnectionAt (peer : PeerEntry) (nowMs : ℕ) : Bool :=
  peer.isBannedAt nowMs = false ∧ peer.lastError = none ∧ peer.lastKnownHeight.isSome
    ∧ peer.lastSuccessMs.any fun lastSuccess => nowMs - lastSuccess ≤ peerGoodConnectionMaxAgeMs

/-- `clear_misbehavior`. -/
def clearMisbehavior (peer : PeerEntry) : PeerEntry :=
  { peer with misbehaviorScore := 0, bannedUntilMs := none, banReason := none }

/-- A discovered peer that has been spoken to is an outbound one. -/
def contacted (peer : PeerEntry) : PeerEntry :=
  if peer.direction = .discovered then { peer with direction := .outbound } else peer

/-- The end of `record_sent`, `record_status`, `record_inbound_status` and `record_received`. -/
def succeeded (nowMs : ℕ) (peer : PeerEntry) : PeerEntry :=
  let peer := { peer with lastContactMs := some nowMs, lastSuccessMs := some nowMs }
  if peer.isBannedAt nowMs then peer else { peer with lastError := none }.clearMisbehavior

/-- The status that a peer has reported. -/
def reported (height : ℕ) (tipHash : Str) (peer : PeerEntry) : PeerEntry :=
  { peer with lastKnownHeight := some height, lastKnownTipHash := some tipHash }

/-- The body of `record_error` and `record_inbound_error`. -/
def failed (error : Str) (nowMs : ℕ) (peer : PeerEntry) : PeerEntry :=
  { peer with lastContactMs := some nowMs, lastErrorMs := some nowMs, lastError := some error }

/-- The body of `record_misbehavior_with_direction`. -/
def misbehaved (reason : Str) (nowMs : ℕ) (peer : PeerEntry) : PeerEntry :=
  let score := min (peer.misbehaviorScore + 1) u32Max
  { peer.failed reason nowMs with
    misbehaviorScore := score
    banReason := some reason
    bannedUntilMs :=
      if peerMisbehaviorBanScore ≤ score then some (saturatingAdd nowMs peerMisbehaviorBanMs)
      else peer.bannedUntilMs }

/-- The body of `record_clock_observation`. -/
def observedClock (remoteTimeMs localReceiveTimeMs : ℕ) (peer : PeerEntry) : PeerEntry :=
  let offset : ℤ := max (-2 ^ 63) (min (remoteTimeMs - localReceiveTimeMs) (2 ^ 63 - 1))
  { peer with
    lastClockOffsetMs := some offset
    lastClockOffsetAccepted := some (offset.natAbs ≤ peerClockOffsetAcceptanceMs)
    lastClockObservedMs := some localReceiveTimeMs }

/-- The merge of `replace_peer_address`: what is known of `peer` is added to `other`. -/
def merge (peer other : PeerEntry) : PeerEntry :=
  let clockIsNewer : Bool := match peer.lastClockObservedMs, other.lastClockObservedMs with
    | some newer, some older => older < newer
    | some _, none => true
    | none, _ => false
  { other with
    direction :=
      if peer.direction = .outbound then .outbound
      else if peer.direction = .discovered ∧ other.direction = .inbound then .discovered
      else other.direction
    messagesSent := saturatingAdd other.messagesSent peer.messagesSent
    messagesReceived := saturatingAdd other.messagesReceived peer.messagesReceived
    lastKnownHeight := other.lastKnownHeight.or peer.lastKnownHeight
    lastKnownTipHash := other.lastKnownTipHash.or peer.lastKnownTipHash
    lastHello := other.lastHello.or peer.lastHello
    lastClockOffsetMs := if clockIsNewer then peer.lastClockOffsetMs else other.lastClockOffsetMs
    lastClockOffsetAccepted :=
      if clockIsNewer then peer.lastClockOffsetAccepted else other.lastClockOffsetAccepted
    lastClockObservedMs :=
      if clockIsNewer then peer.lastClockObservedMs else other.lastClockObservedMs
    lastContactMs := max other.lastContactMs peer.lastContactMs
    lastSuccessMs := max other.lastSuccessMs peer.lastSuccessMs
    lastErrorMs := max other.lastErrorMs peer.lastErrorMs
    lastError := other.lastError.or peer.lastError
    misbehaviorScore := min (other.misbehaviorScore + peer.misbehaviorScore) u32Max
    bannedUntilMs := max other.bannedUntilMs peer.bannedUntilMs
    banReason := other.banReason.or peer.banReason }

/-- `prune_stale_discovered_peer`: whether the peer is kept. -/
def keptDiscovered (peer : PeerEntry) (nowMs maxAgeMs : ℕ) : Bool :=
  if peer.direction ≠ .discovered ∨ peer.isBannedAt nowMs then true
  else (peer.lastSuccessMs.or peer.lastContactMs).any fun lastContact =>
    nowMs - lastContact ≤ maxAgeMs

/-- `prune_stale_inbound_peer`: whether the peer is kept. -/
def keptInbound (peer : PeerEntry) (nowMs maxAgeMs : ℕ) : Bool :=
  if peer.direction ≠ .inbound ∨ peer.isBannedAt nowMs then true
  else peer.lastContactMs.any fun lastContact => nowMs - lastContact ≤ maxAgeMs

end PeerEntry

/-- The peers of a `PeerBook`. -/
abbrev PeerEntries := BTreeMap Str PeerEntry

namespace PeerEntries

variable (book : PeerEntries)

/-- `ensure`, and what is done to the peer. -/
def update (address : Str) (direction : PeerDirection) (change : PeerEntry → PeerEntry) :
    PeerEntries :=
  book.insert address (change (book[address]?.getD (.new address direction)))

/-- `add_peer`. -/
def addPeer (address : Str) : PeerEntries :=
  match book[address]? with
  | some peer => book.insert address { peer with direction := .outbound }
  | none => if maxTotalPeers ≤ book.size then book else book.insert address (.new address .outbound)

/-- `from_addresses`. -/
def fromAddresses (addresses : List Str) : PeerEntries := addresses.foldl addPeer ∅

/-- How many peers satisfy a predicate. -/
def count (counted : PeerEntry → Bool) : ℕ := (book.values.filter counted).length

/-- `discovered_peer_count`. -/
def discoveredPeerCount : ℕ := book.count fun peer => peer.direction = .discovered

/-- `discovered_peer_has_room`. -/
def discoveredPeerHasRoom [SocketAddrs] (address : Str) : Bool :=
  if maxDiscoveredPeers ≤ book.discoveredPeerCount then false
  else match SocketAddrs.parse address with
    | none => false
    | some candidate =>
      let same (related : SocketAddr → Bool) := book.count fun peer =>
        peer.direction = .discovered ∧ (SocketAddrs.parse peer.address).any related
      if maxDiscoveredPeersPerIp ≤ same fun existing => existing.ip = candidate.ip then false
      else same (fun existing => sameDiscoveryGroup existing candidate)
        < maxDiscoveredPeersPerPrefix

/-- `add_discovered_peer`. -/
def addDiscoveredPeer [SocketAddrs] (address : Str) (nowMs : ℕ) : PeerEntries :=
  match book[address]? with
  | some peer =>
    if peer.direction = .inbound ∧ book.discoveredPeerHasRoom address = false then book
    else book.insert address { peer with
      direction := if peer.direction = .inbound then .discovered else peer.direction
      lastContactMs := peer.lastContactMs.or (some nowMs) }
  | none =>
    if book.discoveredPeerHasRoom address = false then book
    else book.insert address { PeerEntry.new address .discovered with lastContactMs := some nowMs }

/-- `promote_discovered_peer`. -/
def promoteDiscoveredPeer (address : Str) : PeerEntries :=
  match book[address]? with
  | some peer => book.insert address peer.contacted
  | none => book

/-- `prune_stale_peers_at`. -/
def pruneStalePeersAt (nowMs inboundMaxAgeMs discoveredMaxAgeMs : ℕ) : PeerEntries :=
  book.filter fun _ peer =>
    peer.keptInbound nowMs inboundMaxAgeMs && peer.keptDiscovered nowMs discoveredMaxAgeMs

/-- `observe_inbound_peer`. -/
def observeInboundPeer (address : Str) : PeerEntries :=
  if address ∈ book ∨ maxTotalPeers ≤ book.size then book
  else book.insert address (.new address .inbound)

/-- `replace_peer_address`. -/
def replacePeerAddress (source target : Str) : PeerEntries :=
  if source = target then if source ∈ book then book else book.addPeer target
  else match book[source]? with
    | none => book.addPeer target
    | some peer =>
      let rest := book.erase source
      rest.insert target (peer.merge (rest[target]?.getD (.new target peer.direction)))

/-- `remove_peer`. -/
def removePeer (address : Str) : PeerEntries :=
  if book[address]?.any fun peer => peer.direction ≠ .inbound then book.erase address else book

/-- `has_good_connection_at`. -/
def hasGoodConnectionAt (nowMs : ℕ) : Bool :=
  book.values.any fun peer => peer.isGoodConnectionAt nowMs

/-- `remove_never_connected_peer_if_other_connection_works_at`. -/
def removeNeverConnectedPeerAt (address : Str) (nowMs : ℕ) : PeerEntries :=
  if (book[address]?.any fun peer => peer.direction ≠ .inbound ∧ peer.lastSuccessMs = none)
      ∧ book.hasGoodConnectionAt nowMs then
    book.erase address
  else book

/-- `record_sent`. -/
def recordSent (address : Str) (messages nowMs : ℕ) : PeerEntries :=
  book.update address .outbound fun peer =>
    { peer.contacted with messagesSent := peer.messagesSent + messages }.succeeded nowMs

/-- `record_status`. -/
def recordStatus (address : Str) (height : ℕ) (tipHash : Str) (nowMs : ℕ) : PeerEntries :=
  book.update address .outbound fun peer =>
    (peer.contacted.reported height tipHash).succeeded nowMs

/-- `record_inbound_status`. -/
def recordInboundStatus (address : Str) (height : ℕ) (tipHash : Str) (nowMs : ℕ) : PeerEntries :=
  book.update address .inbound fun peer =>
    ({ peer with messagesReceived := peer.messagesReceived + 1 }.reported height tipHash).succeeded
      nowMs

/-- `record_received`. -/
def recordReceived (address : Str) (messages nowMs : ℕ) : PeerEntries :=
  book.update address .inbound fun peer =>
    { peer with messagesReceived := peer.messagesReceived + messages }.succeeded nowMs

/-- `record_hello`. -/
def recordHello (address : Str) (direction : PeerDirection) (hello : ProtocolHello) : PeerEntries :=
  book.update address direction fun peer => { peer with lastHello := some hello }

/-- `record_clock_observation`. -/
def recordClockObservation (address : Str) (direction : PeerDirection)
    (remoteTimeMs localReceiveTimeMs : ℕ) : PeerEntries :=
  if remoteTimeMs = 0 then book
  else book.update address direction (·.observedClock remoteTimeMs localReceiveTimeMs)

/-- `record_error`. -/
def recordError (address error : Str) (nowMs : ℕ) : PeerEntries :=
  book.update address .outbound (·.failed error nowMs)

/-- `record_inbound_error`. -/
def recordInboundError (address error : Str) (nowMs : ℕ) : PeerEntries :=
  book.update address .inbound (·.failed error nowMs)

/-- `record_misbehavior_with_direction`: `record_misbehavior_at` for an outbound peer,
`record_inbound_misbehavior` for an inbound one. -/
def recordMisbehaviorWithDirection (address reason : Str) (nowMs : ℕ)
    (direction : PeerDirection) : PeerEntries :=
  book.update address direction (·.misbehaved reason nowMs)

end PeerEntries

end Iuna
