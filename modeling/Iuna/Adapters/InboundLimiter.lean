import Iuna.App.PeerBook

/-!
# Inbound sessions

`inbound_limiter.rs`: the limits on the sessions that peers open, and the permits that release
them.  The map of the peers is a function.
-/

namespace Iuna

/-- `MAX_INBOUND_SESSIONS`. -/
def maxInboundSessions : ℕ := 64

/-- `MAX_INBOUND_SESSIONS_PER_IP`. -/
def maxInboundSessionsPerIp : ℕ := 8

/-- `MAX_INBOUND_ACCEPTS_PER_IP_PER_WINDOW`. -/
def maxInboundAcceptsPerIpPerWindow : ℕ := 24

/-- `INBOUND_ACCEPT_RATE_WINDOW_MS`. -/
def inboundAcceptRateWindowMs : ℕ := 10000

/-- `InboundPeerLimit`, with its oldest accept first. -/
structure InboundPeerLimit where
  active : ℕ
  acceptedAtMs : List ℕ
  deriving DecidableEq

/-- `InboundPeerLimit::default`. -/
def InboundPeerLimit.default : InboundPeerLimit := ⟨0, []⟩

/-- `InboundSessionRejection`. -/
inductive InboundSessionRejection
  | globalActive
  | peerActive
  | peerRate
  deriving DecidableEq

/-- `InboundSessionRejection::label`. -/
def InboundSessionRejection.label : InboundSessionRejection → String
  | .globalActive => "global active inbound session limit"
  | .peerActive => "per-IP active inbound session limit"
  | .peerRate => "per-IP inbound accept rate limit"

/-- `InboundConnectionLimiter`. -/
structure InboundConnectionLimiter where
  active : ℕ
  peers : IpAddr → Option InboundPeerLimit

/-- `prune_peer_accepts`. -/
def prunePeerAccepts (peer : InboundPeerLimit) (nowMs : ℕ) : InboundPeerLimit :=
  { peer with
    acceptedAtMs := peer.acceptedAtMs.dropWhile fun acceptedMs =>
      inboundAcceptRateWindowMs ≤ nowMs - acceptedMs }

namespace InboundConnectionLimiter

/-- `InboundConnectionLimiter::default`. -/
def default : InboundConnectionLimiter := ⟨0, fun _ => none⟩

/-- The entry of a peer, or a new one. -/
def peer (limiter : InboundConnectionLimiter) (ip : IpAddr) : InboundPeerLimit :=
  (limiter.peers ip).getD .default

/-- Write the entry of a peer. -/
def setPeer (limiter : InboundConnectionLimiter) (ip : IpAddr) (peer : InboundPeerLimit) :
    InboundConnectionLimiter :=
  { limiter with peers := Function.update limiter.peers ip (some peer) }

/-- What `prune_stale_accepts` retains of an entry. -/
def retainPeer (nowMs : ℕ) (peer : InboundPeerLimit) : Option InboundPeerLimit :=
  let peer := prunePeerAccepts peer nowMs
  if 0 < peer.active ∨ peer.acceptedAtMs ≠ [] then some peer else none

/-- `prune_stale_accepts`. -/
def pruneStaleAccepts (limiter : InboundConnectionLimiter) (nowMs : ℕ) :
    InboundConnectionLimiter :=
  { limiter with peers := fun ip => (limiter.peers ip).bind (retainPeer nowMs) }

/-- `try_acquire`, with what it leaves of the limiter. -/
def tryAcquire (limiter : InboundConnectionLimiter) (ip : IpAddr) (nowMs : ℕ) :
    InboundConnectionLimiter × Except InboundSessionRejection Unit :=
  let limiter := limiter.pruneStaleAccepts nowMs
  if maxInboundSessions ≤ limiter.active then (limiter, .error .globalActive)
  else
    let peer := prunePeerAccepts (limiter.peer ip) nowMs
    if maxInboundSessionsPerIp ≤ peer.active then (limiter.setPeer ip peer, .error .peerActive)
    else if maxInboundAcceptsPerIpPerWindow ≤ peer.acceptedAtMs.length then
      (limiter.setPeer ip peer, .error .peerRate)
    else
      let limiter := limiter.setPeer ip
        ⟨peer.active + 1, peer.acceptedAtMs ++ [nowMs]⟩
      ({ limiter with active := limiter.active + 1 }, .ok ())

/-- `release`. -/
def release (limiter : InboundConnectionLimiter) (ip : IpAddr) : InboundConnectionLimiter :=
  let limiter := if 0 < limiter.active then { limiter with active := limiter.active - 1 }
    else limiter
  match limiter.peers ip with
  | some peer =>
    if 0 < peer.active then limiter.setPeer ip { peer with active := peer.active - 1 } else limiter
  | none => limiter

end InboundConnectionLimiter

/-! ## Sessions -/

/-- The limiter with the permits that are held, by their addresses, and the connections that it has
accepted, the oldest first. -/
structure InboundSessions where
  limiter : InboundConnectionLimiter
  permits : List IpAddr
  accepts : List (IpAddr × ℕ)

namespace InboundSessions

def empty : InboundSessions := ⟨.default, [], []⟩

/-- `try_acquire_inbound_session`. -/
def tryAcquireInboundSession (sessions : InboundSessions) (ip : IpAddr) (nowMs : ℕ) :
    InboundSessions :=
  match sessions.limiter.tryAcquire ip nowMs with
  | (limiter, .ok ()) => ⟨limiter, ip :: sessions.permits, sessions.accepts ++ [(ip, nowMs)]⟩
  | (limiter, .error _) => { sessions with limiter := limiter }

/-- `InboundSessionPermit::drop`. -/
def dropPermit (sessions : InboundSessions) (ip : IpAddr) : InboundSessions :=
  { sessions with limiter := sessions.limiter.release ip, permits := sessions.permits.erase ip }

/-- When a peer has been accepted. -/
def acceptsOf (sessions : InboundSessions) (ip : IpAddr) : List ℕ :=
  (sessions.accepts.filter fun accept => accept.1 = ip).map Prod.snd

end InboundSessions

/-- A peer connects, or a session ends with its permit. -/
inductive InboundEvent
  | connect (ip : IpAddr) (nowMs : ℕ)
  | finish (ip : IpAddr)
  deriving DecidableEq

/-- The time that the limiter reads. -/
def InboundEvent.time : InboundEvent → Option ℕ
  | .connect _ nowMs => some nowMs
  | .finish _ => none

/-- The steps of the sessions: only a permit that is held is dropped. -/
def InboundStep (sessions : InboundSessions) :
    InboundEvent → InboundSessions → Prop
  | .connect ip nowMs, sessions' => sessions' = sessions.tryAcquireInboundSession ip nowMs
  | .finish ip, sessions' => ip ∈ sessions.permits ∧ sessions' = sessions.dropPermit ip

end Iuna
