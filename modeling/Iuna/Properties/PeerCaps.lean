import Mathlib.Data.List.Induction
import Iuna.App.PeerBook
import Iuna.Library.MapSum
import Iuna.Library.Runs

/-!
# The caps and the bans of the peer book

Four caps bound the peers of a book: on all of them, on those that were only heard of, and on the
latter for each IP address and each group of addresses.  Only some of the operations look at the
caps before a peer enters a class that one of them counts, and one operation removes a peer without
regard to its ban.  Along a run in which a peer enters only where there is room, and a banned peer
is removed by explicit removal only, all caps hold, and no ban is lost or shortened while it lasts
(`caps_and_bans`).
-/

namespace Iuna

/-! ## Caps -/

/-- The caps of the book. -/
inductive Cap
  | total
  | discovered
  | ip (address : IpAddr)
  | group (members : DiscoveryGroup)

namespace Cap

variable [SocketAddrs]

/-- The peers that a cap counts. -/
def counts : Cap → PeerEntry → Bool
  | total, _ => true
  | discovered, peer => peer.direction = .discovered
  | .ip address, peer => peer.direction = .discovered
    ∧ (SocketAddrs.parse peer.address).any fun existing => existing.ip = address
  | .group members, peer => peer.direction = .discovered
    ∧ (SocketAddrs.parse peer.address).any fun existing => existing.ip.discoveryGroup = members

omit [SocketAddrs] in
/-- How many peers a cap allows. -/
def limit : Cap → ℕ
  | total => maxTotalPeers
  | discovered => maxDiscoveredPeers
  | ip _ => maxDiscoveredPeersPerIp
  | group _ => maxDiscoveredPeersPerPrefix

variable {cap : Cap} {peer peer' : PeerEntry}

/-- A cap looks at the address, and at whether the peer was only heard of. -/
lemma counts_mono (h : cap.counts peer' = true) (address : peer'.address = peer.address)
    (direction : peer'.direction = .discovered → peer.direction = .discovered) :
    cap.counts peer = true := by
  cases cap with
  | total => rfl
  | discovered =>
    simp only [counts, decide_eq_true_eq] at h ⊢
    exact direction h
  | ip | group =>
    simp only [counts, decide_eq_true_eq] at h ⊢
    rw [← address]
    exact ⟨direction h.1, h.2⟩

lemma discovered_of_counts (special : cap ≠ total) (h : cap.counts peer = true) :
    peer.direction = .discovered := by
  cases cap with
  | total => exact absurd rfl special
  | discovered => simpa [counts] using h
  | ip | group =>
    simp only [counts, decide_eq_true_eq] at h
    exact h.1

end Cap

namespace PeerEntries

variable {book : PeerEntries} {address : Str} {peer old : PeerEntry}

/-! ## Counting -/

/-- The weight of the peers that are counted. -/
def weight (counted : PeerEntry → Bool) (_ : Str) (peer : PeerEntry) : ℕ :=
  if counted peer then 1 else 0

lemma count_eq_total (counted : PeerEntry → Bool) :
    book.count counted = MapSum.total (weight counted) book := by
  have hlist (entries : List (Str × PeerEntry)) : ((entries.map Prod.snd).filter counted).length
      = (entries.map fun entry => weight counted entry.1 entry.2).sum := by
    induction entries with
    | nil => rfl
    | cons entry entries ih =>
      rw [List.map_cons, List.filter_cons, List.map_cons, List.sum_cons, ← ih, weight]
      split
      · rw [List.length_cons, Nat.add_comm]
      · rw [Nat.zero_add]
  rw [count, MapSum.values_eq_map_toList, hlist, MapSum.total]

lemma count_all : book.count (fun _ => true) = book.size := by
  rw [count, List.filter_true, MapSum.values_eq_map_toList, List.length_map,
    Std.ExtTreeMap.length_toList]

lemma count_insert_le (counted : PeerEntry → Bool) :
    count (book.insert address peer) counted ≤ weight counted address peer + book.count counted := by
  rw [count_eq_total, count_eq_total]
  exact MapSum.total_insert_le _ _ _ _

/-- An entry that replaces a counted one raises no count. -/
lemma count_insert_of_counted {counted : PeerEntry → Bool} (present : book[address]? = some old)
    (h : counted peer = true → counted old = true) :
    count (book.insert address peer) counted ≤ book.count counted := by
  have hexchange : weight counted address old
      + MapSum.total (weight counted) (book.insert address peer)
        = weight counted address peer + MapSum.total (weight counted) book :=
    MapSum.total_insert present
  rw [count_eq_total, count_eq_total]
  have hweight : weight counted address peer ≤ weight counted address old := by
    unfold weight
    split
    · rename_i hcounted
      rw [if_pos (h hcounted)]
    · exact Nat.zero_le _
  omega

lemma count_erase (counted : PeerEntry → Bool) (present : book[address]? = some old) :
    weight counted address old + count (book.erase address) counted = book.count counted := by
  rw [count_eq_total, count_eq_total]
  exact MapSum.total_erase present

lemma count_erase_le (counted : PeerEntry → Bool) (address : Str) :
    count (book.erase address) counted ≤ book.count counted := by
  cases h : book[address]? with
  | none => rw [MapSum.erase_eq_self (by simpa using h)]
  | some old =>
    have herase := count_erase counted h
    omega

lemma count_filter_le (counted : PeerEntry → Bool) (kept : Str → PeerEntry → Bool) :
    count (book.filter kept) counted ≤ book.count counted := by
  rw [count, count, MapSum.values_eq_map_toList, MapSum.values_eq_map_toList,
    Std.ExtTreeMap.toList_filter]
  exact ((List.filter_sublist.map Prod.snd).filter counted).length_le

variable [SocketAddrs]

/-- All caps hold, and every peer is filed under its address. -/
structure WithinCaps (book : PeerEntries) : Prop where
  caps : ∀ cap : Cap, book.count cap.counts ≤ cap.limit
  filed : ∀ (address : Str) (peer : PeerEntry), book[address]? = some peer → peer.address = address

/-- None of the caps that would count a new peer has been reached. -/
def HasRoomFor (book : PeerEntries) (address : Str) (direction : PeerDirection) : Prop :=
  ∀ cap : Cap, cap.counts (.new address direction) = true → book.count cap.counts < cap.limit

lemma withinCaps_empty : WithinCaps ∅ where
  caps := by
    intro cap
    rw [count_eq_total, MapSum.total_empty]
    exact Nat.zero_le _
  filed := by simp

/-- An entry may be inserted if every cap that counts it has counted it before or has room. -/
lemma WithinCaps.insert (within : book.WithinCaps) (filed : peer.address = address)
    (h : ∀ cap : Cap, cap.counts peer = true →
      (∃ old, book[address]? = some old ∧ cap.counts old = true)
        ∨ book.count cap.counts < cap.limit) : WithinCaps (book.insert address peer) where
  caps := by
    intro cap
    by_cases hcounted : cap.counts peer = true
    · rcases h cap hcounted with ⟨old, hold, hcountedOld⟩ | hroom
      · exact (count_insert_of_counted hold fun _ => hcountedOld).trans (within.caps cap)
      · have hinsert : count (book.insert address peer) cap.counts
            ≤ weight cap.counts address peer + book.count cap.counts := count_insert_le _
        rw [weight, if_pos hcounted] at hinsert
        omega
    · have hinsert : count (book.insert address peer) cap.counts
          ≤ weight cap.counts address peer + book.count cap.counts := count_insert_le _
      rw [weight, if_neg hcounted, Nat.zero_add] at hinsert
      exact hinsert.trans (within.caps cap)
  filed := by
    intro other found hfound
    rw [Std.ExtTreeMap.getElem?_insert] at hfound
    split at hfound
    · rename_i hsame
      rw [← Option.some.inj hfound, filed]
      exact Std.LawfulEqCmp.eq_of_compare hsame
    · exact within.filed other found hfound

/-- A present peer may be changed as long as it is not made one that was only heard of. -/
lemma WithinCaps.change (within : book.WithinCaps) (present : book[address]? = some old)
    (filed : peer.address = old.address)
    (direction : peer.direction = .discovered → old.direction = .discovered) :
    WithinCaps (book.insert address peer) :=
  within.insert (filed.trans (within.filed address old present)) fun _ hcounted =>
    .inl ⟨old, present, Cap.counts_mono hcounted filed direction⟩

lemma WithinCaps.enter (within : book.WithinCaps) (direction : PeerDirection)
    (room : book.HasRoomFor address direction) (filed : peer.address = address)
    (discovered : peer.direction = .discovered → direction = .discovered) :
    WithinCaps (book.insert address peer) :=
  within.insert filed fun cap hcounted => .inr (room cap
    (Cap.counts_mono hcounted filed discovered))

lemma WithinCaps.erase (within : book.WithinCaps) (address : Str) :
    WithinCaps (book.erase address) where
  caps := fun cap => (count_erase_le _ _).trans (within.caps cap)
  filed := by
    intro other found hfound
    exact within.filed other found (MapSum.Below.erase_self book address other found hfound)

lemma WithinCaps.filter (within : book.WithinCaps) (kept : Str → PeerEntry → Bool) :
    WithinCaps (book.filter kept) where
  caps := fun cap => (count_filter_le _ _).trans (within.caps cap)
  filed := by
    intro other found hfound
    rw [Std.ExtTreeMap.getElem?_filter] at hfound
    exact within.filed other found (Option.pfilter_eq_some_iff.mp hfound).1

/-! ## Room -/

lemma hasRoomFor_of_ne_discovered {direction : PeerDirection} (known : direction ≠ .discovered)
    (room : book.size < maxTotalPeers) : book.HasRoomFor address direction := by
  intro cap hcounted
  by_cases htotal : cap = .total
  · subst htotal
    exact count_all.trans_lt room
  · exact absurd (Cap.discovered_of_counts htotal hcounted) known

/-- `discovered_peer_has_room` looks at every cap but the one on all peers. -/
lemma counted_of_discoveredPeerHasRoom (room : book.discoveredPeerHasRoom address = true) {cap : Cap}
    (special : cap ≠ .total) (hcounted : cap.counts (.new address .discovered) = true) :
    book.count cap.counts < cap.limit := by
  unfold discoveredPeerHasRoom at room
  split at room
  · cases room
  · rename_i hdiscovered
    cases cap with
    | total => exact absurd rfl special
    | discovered => exact not_le.mp hdiscovered
    | ip candidate =>
      simp only [Cap.counts, PeerEntry.new, true_and, decide_eq_true_eq] at hcounted
      cases hparse : SocketAddrs.parse address with
      | none => simp [hparse] at hcounted
      | some parsed =>
        simp only [hparse, Option.any_some, decide_eq_true_eq] at room hcounted
        split at room
        · cases room
        · rename_i hip
          subst hcounted
          exact not_le.mp hip
    | group members =>
      simp only [Cap.counts, PeerEntry.new, true_and, decide_eq_true_eq] at hcounted
      cases hparse : SocketAddrs.parse address with
      | none => simp [hparse] at hcounted
      | some parsed =>
        simp only [hparse, Option.any_some, decide_eq_true_eq] at room hcounted
        split at room
        · cases room
        · subst hcounted
          simp only [sameDiscoveryGroup] at room
          exact of_decide_eq_true room

end PeerEntries

/-! ## Operations -/

/-- The operations on a peer book, with the time at which they read the clock. -/
inductive PeerOp
  | addPeer (address : Str)
  | addDiscoveredPeer (address : Str) (nowMs : ℕ)
  | promoteDiscoveredPeer (address : Str)
  | pruneStalePeersAt (nowMs inboundMaxAgeMs discoveredMaxAgeMs : ℕ)
  | observeInboundPeer (address : Str)
  | replacePeerAddress (source target : Str)
  | removePeer (address : Str)
  | removeNeverConnectedPeerAt (address : Str) (nowMs : ℕ)
  | recordSent (address : Str) (messages nowMs : ℕ)
  | recordStatus (address : Str) (height : ℕ) (tipHash : Str) (nowMs : ℕ)
  | recordInboundStatus (address : Str) (height : ℕ) (tipHash : Str) (nowMs : ℕ)
  | recordReceived (address : Str) (messages nowMs : ℕ)
  | recordHello (address : Str) (direction : PeerDirection) (hello : ProtocolHello)
  | recordClockObservation (address : Str) (direction : PeerDirection)
      (remoteTimeMs localReceiveTimeMs : ℕ)
  | recordError (address error : Str) (nowMs : ℕ)
  | recordInboundError (address error : Str) (nowMs : ℕ)
  | recordMisbehavior (address reason : Str) (nowMs : ℕ) (direction : PeerDirection)

namespace PeerOp

/-- What an operation does to the book. -/
def apply [SocketAddrs] (book : PeerEntries) : PeerOp → PeerEntries
  | addPeer address => book.addPeer address
  | addDiscoveredPeer address nowMs => book.addDiscoveredPeer address nowMs
  | promoteDiscoveredPeer address => book.promoteDiscoveredPeer address
  | pruneStalePeersAt nowMs inboundMaxAgeMs discoveredMaxAgeMs =>
    book.pruneStalePeersAt nowMs inboundMaxAgeMs discoveredMaxAgeMs
  | observeInboundPeer address => book.observeInboundPeer address
  | replacePeerAddress source target => book.replacePeerAddress source target
  | removePeer address => book.removePeer address
  | removeNeverConnectedPeerAt address nowMs => book.removeNeverConnectedPeerAt address nowMs
  | recordSent address messages nowMs => book.recordSent address messages nowMs
  | recordStatus address height tipHash nowMs => book.recordStatus address height tipHash nowMs
  | recordInboundStatus address height tipHash nowMs =>
    book.recordInboundStatus address height tipHash nowMs
  | recordReceived address messages nowMs => book.recordReceived address messages nowMs
  | recordHello address direction hello => book.recordHello address direction hello
  | recordClockObservation address direction remoteTimeMs localReceiveTimeMs =>
    book.recordClockObservation address direction remoteTimeMs localReceiveTimeMs
  | recordError address error nowMs => book.recordError address error nowMs
  | recordInboundError address error nowMs => book.recordInboundError address error nowMs
  | recordMisbehavior address reason nowMs direction =>
    book.recordMisbehaviorWithDirection address reason nowMs direction

/-- The peer that an operation creates if the book has none of its address. -/
def creates : PeerOp → Option (Str × PeerDirection)
  | recordSent address .. | recordStatus address .. | recordError address .. =>
    some (address, .outbound)
  | recordInboundStatus address .. | recordReceived address .. | recordInboundError address .. =>
    some (address, .inbound)
  | recordHello address direction _ | recordClockObservation address direction ..
  | recordMisbehavior address _ _ direction => some (address, direction)
  | addDiscoveredPeer .. | addPeer _ | promoteDiscoveredPeer _ | pruneStalePeersAt ..
  | observeInboundPeer _ | replacePeerAddress .. | removePeer _ | removeNeverConnectedPeerAt .. =>
    none

variable [SocketAddrs]

/-- A peer that an operation lets into a class finds the caps of the class not reached. -/
def FindsRoom (op : PeerOp) (book : PeerEntries) : Prop :=
  match op with
  | addDiscoveredPeer address _ => address ∈ book ∨ book.size < maxTotalPeers
  | replacePeerAddress source target => source ≠ target → ∀ peer, book[source]? = some peer →
    peer.direction = .discovered → (book[target]?.all fun other => other.direction = .inbound) →
      PeerEntries.HasRoomFor (book.erase source) target .discovered
  | op => ∀ address direction, op.creates = some (address, direction) →
    address ∈ book ∨ book.HasRoomFor address direction

omit [SocketAddrs] in
/-- A misbehaving peer is not banned until a time later than a new ban would end, and a peer that
is removed because it was never connected is not banned. -/
def SparesBans (op : PeerOp) (book : PeerEntries) : Prop :=
  match op with
  | recordMisbehavior address _ nowMs _ => ∀ peer bannedUntil, book[address]? = some peer →
    peer.bannedUntilMs = some bannedUntil →
      bannedUntil ≤ saturatingAdd nowMs peerMisbehaviorBanMs
  | removeNeverConnectedPeerAt address nowMs => ∀ peer, book[address]? = some peer →
    peer.isBannedAt nowMs = false
  | _ => True

omit [SocketAddrs] in
/-- The time at which an operation reads the clock. -/
def timeMs : PeerOp → Option ℕ
  | addDiscoveredPeer _ nowMs | pruneStalePeersAt nowMs _ _ | removeNeverConnectedPeerAt _ nowMs
  | recordSent _ _ nowMs | recordStatus _ _ _ nowMs | recordInboundStatus _ _ _ nowMs
  | recordReceived _ _ nowMs | recordError _ _ nowMs | recordInboundError _ _ nowMs
  | recordMisbehavior _ _ nowMs _ => some nowMs
  | addPeer _ | promoteDiscoveredPeer _ | observeInboundPeer _ | replacePeerAddress .. | removePeer _
  | recordHello .. | recordClockObservation .. => none

omit [SocketAddrs] in
/-- Where the peer of an address is found afterwards, unless it is removed explicitly. -/
def follow (op : PeerOp) (address : Str) : Option Str :=
  match op with
  | replacePeerAddress source target => some (if address = source then target else address)
  | removePeer removed => if address = removed then none else some address
  | _ => some address

end PeerOp

namespace PeerEntries

variable [SocketAddrs] {book : PeerEntries} {address : Str} {direction : PeerDirection}

/-! ## Caps along a run -/

lemma WithinCaps.addPeer (within : book.WithinCaps) (address : Str) :
    WithinCaps (book.addPeer address) := by
  unfold PeerEntries.addPeer
  split
  · rename_i peer hpeer
    exact within.change hpeer rfl nofun
  · split
    · exact within
    · rename_i hfull
      exact within.enter .outbound
        (hasRoomFor_of_ne_discovered nofun (not_le.mp hfull)) rfl nofun

lemma fromAddresses_withinCaps (addresses : List Str) : WithinCaps (fromAddresses addresses) := by
  have hfold (book : PeerEntries) (within : book.WithinCaps) :
      WithinCaps (addresses.foldl PeerEntries.addPeer book) := by
    induction addresses generalizing book with
    | nil => exact within
    | cons address addresses ih => exact ih _ (within.addPeer address)
  exact hfold ∅ withinCaps_empty

omit [SocketAddrs] in
/-- A book of different addresses that it has room for holds exactly these. -/
lemma fromAddresses_size {addresses : List Str} (nodup : addresses.Nodup)
    (few : addresses.length ≤ maxTotalPeers) :
    (fromAddresses addresses).size = addresses.length
      ∧ ∀ address, address ∈ fromAddresses addresses ↔ address ∈ addresses := by
  induction addresses using List.reverseRecOn with
  | nil => simp [fromAddresses]
  | append_singleton addresses last ih =>
    rw [List.nodup_append] at nodup
    rw [List.length_append, List.length_singleton] at few
    obtain ⟨hsize, hmem⟩ := ih nodup.1 (by omega)
    have hnew : last ∉ fromAddresses addresses := fun h =>
      nodup.2.2 last ((hmem last).mp h) last (List.mem_singleton_self last) rfl
    have hfold : fromAddresses (addresses ++ [last])
        = (fromAddresses addresses).insert last (.new last .outbound) := by
      rw [fromAddresses, List.foldl_append]
      show (fromAddresses addresses).addPeer last = _
      rw [PeerEntries.addPeer, Std.ExtTreeMap.getElem?_eq_none hnew, if_neg (by omega)]
    rw [hfold]
    constructor
    · rw [Std.ExtTreeMap.size_insert, if_neg (mt Std.ExtTreeMap.contains_iff_mem.mp hnew), hsize,
        List.length_append, List.length_singleton]
    · intro address
      rw [Std.ExtTreeMap.mem_insert, hmem, List.mem_append, List.mem_singleton,
        Std.LawfulEqCmp.compare_eq_iff_eq, or_comm, eq_comm]

/-- A record of a peer keeps the caps if a new peer finds room. -/
lemma WithinCaps.update (within : book.WithinCaps) {change : PeerEntry → PeerEntry}
    (filed : ∀ peer, (change peer).address = peer.address)
    (discovered : ∀ peer, (change peer).direction = .discovered → peer.direction = .discovered)
    (room : address ∈ book ∨ book.HasRoomFor address direction) :
    WithinCaps (book.update address direction change) := by
  unfold PeerEntries.update
  cases hpeer : book[address]? with
  | some peer => exact within.change hpeer (filed peer) (discovered peer)
  | none =>
    have hroom : book.HasRoomFor address direction :=
      room.resolve_left fun hmem => by simp [Std.ExtTreeMap.mem_iff_isSome_getElem?, hpeer] at hmem
    exact within.enter direction hroom (filed _) (discovered _)

lemma WithinCaps.addDiscoveredPeer (within : book.WithinCaps) (nowMs : ℕ)
    (room : address ∈ book ∨ book.size < maxTotalPeers) :
    WithinCaps (book.addDiscoveredPeer address nowMs) := by
  unfold PeerEntries.addDiscoveredPeer
  split
  · rename_i peer hpeer
    have hfiled := within.filed address peer hpeer
    split
    · exact within
    · rename_i hroom
      refine within.insert hfiled fun cap hcounted => ?_
      by_cases hknown : cap = .total ∨ peer.direction = .discovered
      · refine .inl ⟨peer, hpeer, ?_⟩
        rcases hknown with rfl | hknown
        · rfl
        · exact Cap.counts_mono hcounted rfl fun _ => hknown
      · rw [not_or] at hknown
        have hdiscovered := Cap.discovered_of_counts hknown.1 hcounted
        have hinbound : peer.direction = .inbound := by
          by_contra hother
          simp only [if_neg hother] at hdiscovered
          exact hknown.2 hdiscovered
        have hfree : book.discoveredPeerHasRoom address = true := by
          simpa [hinbound] using hroom
        exact .inr (counted_of_discoveredPeerHasRoom hfree hknown.1
          (Cap.counts_mono hcounted hfiled fun _ => rfl))
  · rename_i hnone
    split
    · exact within
    · rename_i hfree
      rw [Bool.not_eq_false] at hfree
      have hsize : book.size < maxTotalPeers := room.resolve_left fun hmem => by
        simp [Std.ExtTreeMap.mem_iff_isSome_getElem?, hnone] at hmem
      refine within.enter .discovered (fun cap hcounted => ?_) rfl fun _ => rfl
      by_cases htotal : cap = .total
      · subst htotal
        exact count_all.trans_lt hsize
      · exact counted_of_discoveredPeerHasRoom hfree htotal hcounted

omit [SocketAddrs] in
lemma merge_discovered {peer other : PeerEntry} (h : (peer.merge other).direction = .discovered) :
    other.direction = .discovered
      ∨ peer.direction = .discovered ∧ other.direction = .inbound := by
  simp only [PeerEntry.merge] at h
  split at h
  · cases h
  · split at h
    · rename_i hboth
      exact .inr hboth
    · exact .inl h

lemma WithinCaps.replacePeerAddress (within : book.WithinCaps) {source target : Str}
    (room : (PeerOp.replacePeerAddress source target).FindsRoom book) :
    WithinCaps (book.replacePeerAddress source target) := by
  unfold PeerEntries.replacePeerAddress
  split
  · split
    · exact within
    · exact within.addPeer target
  · rename_i hmoves
    split
    · exact within.addPeer target
    · rename_i peer hpeer
      have hrest := within.erase source
      have htarget : (book.erase source)[target]? = book[target]? := by
        rw [Std.ExtTreeMap.getElem?_erase, if_neg]
        exact fun hsame => hmoves (Std.LawfulEqCmp.eq_of_compare hsame)
      have hfind := room hmoves peer hpeer
      dsimp only
      rw [htarget]
      cases hother : book[target]? with
      | some other =>
        rw [hother] at hfind htarget
        have hfiled := within.filed target other hother
        refine hrest.insert hfiled fun cap hcounted => ?_
        by_cases hknown : cap = .total ∨ other.direction = .discovered
        · refine .inl ⟨other, htarget, ?_⟩
          rcases hknown with rfl | hknown
          · rfl
          · exact Cap.counts_mono hcounted rfl fun _ => hknown
        · rw [not_or] at hknown
          have hmerged := merge_discovered (Cap.discovered_of_counts hknown.1 hcounted)
          obtain ⟨hpeerDirection, hinbound⟩ := hmerged.resolve_left hknown.2
          exact .inr (hfind hpeerDirection (by simpa using hinbound) cap
            (Cap.counts_mono hcounted hfiled fun _ => rfl))
      | none =>
        rw [hother] at hfind
        refine hrest.insert rfl fun cap hcounted => .inr ?_
        by_cases htotal : cap = .total
        · -- the peer that moves has made room
          subst htotal
          have herase := count_erase (Cap.counts .total) hpeer
          have hcap := within.caps .total
          have hcounts : Cap.counts .total peer = true := rfl
          rw [weight, if_pos hcounts] at herase
          omega
        · have hdirection : peer.direction = .discovered := by
            rcases merge_discovered (Cap.discovered_of_counts htotal hcounted) with h | h
            · exact h
            · exact h.1
          exact hfind hdirection rfl cap (Cap.counts_mono hcounted rfl fun _ => rfl)

omit [SocketAddrs] in
lemma succeeded_filed (nowMs : ℕ) (peer : PeerEntry) :
    (peer.succeeded nowMs).address = peer.address
      ∧ (peer.succeeded nowMs).direction = peer.direction := by
  unfold PeerEntry.succeeded
  dsimp only
  split
  · exact ⟨rfl, rfl⟩
  · exact ⟨rfl, rfl⟩

omit [SocketAddrs] in
lemma contacted_filed (peer : PeerEntry) :
    peer.contacted.address = peer.address ∧ peer.contacted.direction ≠ .discovered := by
  unfold PeerEntry.contacted
  split
  · exact ⟨rfl, nofun⟩
  · rename_i hdirection
    exact ⟨rfl, hdirection⟩

/-- An operation whose new peers find room keeps the caps. -/
lemma WithinCaps.apply (within : book.WithinCaps) {op : PeerOp} (room : op.FindsRoom book) :
    WithinCaps (op.apply book) := by
  cases op with
  | addPeer address => exact within.addPeer address
  | addDiscoveredPeer address nowMs => exact within.addDiscoveredPeer nowMs room
  | promoteDiscoveredPeer address =>
    show WithinCaps (book.promoteDiscoveredPeer address)
    unfold PeerEntries.promoteDiscoveredPeer
    split
    · rename_i peer hpeer
      obtain ⟨hfiled, hdirection⟩ := contacted_filed peer
      exact within.change hpeer hfiled fun h => absurd h hdirection
    · exact within
  | pruneStalePeersAt => exact within.filter _
  | observeInboundPeer address =>
    show WithinCaps (book.observeInboundPeer address)
    unfold PeerEntries.observeInboundPeer
    split
    · exact within
    · rename_i hnew
      rw [not_or, not_le] at hnew
      exact within.enter .inbound (hasRoomFor_of_ne_discovered nofun hnew.2) rfl nofun
  | replacePeerAddress => exact within.replacePeerAddress room
  | removePeer address =>
    show WithinCaps (book.removePeer address)
    unfold PeerEntries.removePeer
    split
    · exact within.erase address
    · exact within
  | removeNeverConnectedPeerAt address nowMs =>
    show WithinCaps (book.removeNeverConnectedPeerAt address nowMs)
    unfold PeerEntries.removeNeverConnectedPeerAt
    split
    · exact within.erase address
    · exact within
  | recordSent address messages nowMs =>
    show WithinCaps (book.recordSent address messages nowMs)
    unfold PeerEntries.recordSent
    refine within.update ?_ ?_ (room _ _ rfl)
    · exact fun peer => (succeeded_filed nowMs _).1.trans (contacted_filed peer).1
    · intro peer h
      rw [(succeeded_filed nowMs _).2] at h
      exact absurd h (contacted_filed peer).2
  | recordStatus address height tipHash nowMs =>
    show WithinCaps (book.recordStatus address height tipHash nowMs)
    unfold PeerEntries.recordStatus
    refine within.update ?_ ?_ (room _ _ rfl)
    · exact fun peer => (succeeded_filed nowMs _).1.trans (contacted_filed peer).1
    · intro peer h
      rw [(succeeded_filed nowMs _).2] at h
      exact absurd h (contacted_filed peer).2
  | recordInboundStatus address height tipHash nowMs =>
    show WithinCaps (book.recordInboundStatus address height tipHash nowMs)
    unfold PeerEntries.recordInboundStatus
    refine within.update ?_ ?_ (room _ _ rfl)
    · exact fun peer => (succeeded_filed nowMs _).1
    · intro peer h
      rw [(succeeded_filed nowMs _).2] at h
      exact h
  | recordReceived address messages nowMs =>
    show WithinCaps (book.recordReceived address messages nowMs)
    unfold PeerEntries.recordReceived
    refine within.update ?_ ?_ (room _ _ rfl)
    · exact fun peer => (succeeded_filed nowMs _).1
    · intro peer h
      rw [(succeeded_filed nowMs _).2] at h
      exact h
  | recordClockObservation address direction remoteTimeMs localReceiveTimeMs =>
    show WithinCaps (book.recordClockObservation address direction remoteTimeMs localReceiveTimeMs)
    unfold PeerEntries.recordClockObservation
    split
    · exact within
    · exact within.update (fun _ => rfl) (fun _ h => h) (room _ _ rfl)
  | recordHello address direction hello =>
    show WithinCaps (book.recordHello address direction hello)
    exact within.update (fun _ => rfl) (fun _ h => h) (room _ _ rfl)
  | recordError address error nowMs =>
    show WithinCaps (book.recordError address error nowMs)
    exact within.update (fun _ => rfl) (fun _ h => h) (room _ _ rfl)
  | recordInboundError address error nowMs =>
    show WithinCaps (book.recordInboundError address error nowMs)
    exact within.update (fun _ => rfl) (fun _ h => h) (room _ _ rfl)
  | recordMisbehavior address reason nowMs direction =>
    show WithinCaps (book.recordMisbehaviorWithDirection address reason nowMs direction)
    exact within.update (fun _ => rfl) (fun _ h => h) (room _ _ rfl)

/-! ## Bans along a run -/

omit [SocketAddrs] in
/-- The ban of a peer lasts until a time at least. -/
def BanLasts (time : ℕ) (peer : PeerEntry) : Prop :=
  ∃ bannedUntil, peer.bannedUntilMs = some bannedUntil ∧ time ≤ bannedUntil

/-- The peer of an address is banned until a time at least. -/
def BannedUntil (book : PeerEntries) (address : Str) (time : ℕ) : Prop :=
  ∃ peer, book[address]? = some peer ∧ BanLasts time peer

section Bans

omit [SocketAddrs]

variable {banned : Str} {time nowMs : ℕ} {peer : PeerEntry}

lemma BanLasts.isBannedAt (lasts : BanLasts time peer) (early : nowMs < time) :
    peer.isBannedAt nowMs = true := by
  obtain ⟨bannedUntil, huntil, hle⟩ := lasts
  rw [PeerInfo.isBannedAt, huntil, Option.any_some, decide_eq_true_eq]
  omega

lemma BanLasts.succeeded (lasts : BanLasts time peer) (early : nowMs < time) :
    BanLasts time (peer.succeeded nowMs) := by
  have hbanned := lasts.isBannedAt early
  unfold PeerEntry.succeeded
  dsimp only
  rw [if_pos hbanned]
  exact lasts

lemma BanLasts.contacted (lasts : BanLasts time peer) : BanLasts time peer.contacted := by
  unfold PeerEntry.contacted
  split
  · exact lasts
  · exact lasts

lemma BanLasts.merge (lasts : BanLasts time peer) (other : PeerEntry) :
    BanLasts time (peer.merge other) ∧ BanLasts time (other.merge peer) := by
  obtain ⟨bannedUntil, huntil, hle⟩ := lasts
  unfold BanLasts
  simp only [PeerEntry.merge, huntil]
  cases other.bannedUntilMs with
  | none => exact ⟨⟨bannedUntil, rfl, hle⟩, bannedUntil, rfl, hle⟩
  | some otherUntil =>
    exact ⟨⟨_, rfl, hle.trans (le_max_right _ _)⟩, _, rfl, hle.trans (le_max_left _ _)⟩

lemma BanLasts.misbehaved (lasts : BanLasts time peer) (reason : Str)
    (spares : ∀ bannedUntil, peer.bannedUntilMs = some bannedUntil →
      bannedUntil ≤ saturatingAdd nowMs peerMisbehaviorBanMs) :
    BanLasts time (peer.misbehaved reason nowMs) := by
  obtain ⟨bannedUntil, huntil, hle⟩ := lasts
  unfold BanLasts PeerEntry.misbehaved
  dsimp only
  split
  · exact ⟨_, rfl, hle.trans (spares bannedUntil huntil)⟩
  · exact ⟨bannedUntil, huntil, hle⟩

/-- An insertion keeps a ban if the entry that it replaces had none or its ban is kept. -/
lemma BannedUntil.insert (h : BannedUntil book banned time)
    (keeps : ∀ old, book[address]? = some old → BanLasts time old → BanLasts time peer) :
    BannedUntil (book.insert address peer) banned time := by
  obtain ⟨found, hfound, hlasts⟩ := h
  unfold BannedUntil
  rw [Std.ExtTreeMap.getElem?_insert]
  split
  · rename_i hsame
    rw [← Std.LawfulEqCmp.eq_of_compare hsame] at hfound
    exact ⟨peer, rfl, keeps found hfound hlasts⟩
  · exact ⟨found, hfound, hlasts⟩

lemma BannedUntil.erase (h : BannedUntil book banned time) (other : address ≠ banned) :
    BannedUntil (book.erase address) banned time := by
  unfold BannedUntil
  rw [Std.ExtTreeMap.getElem?_erase, if_neg fun hsame => other (Std.LawfulEqCmp.eq_of_compare hsame)]
  exact h

lemma BannedUntil.update (h : BannedUntil book banned time) {change : PeerEntry → PeerEntry}
    (keeps : ∀ old, book[address]? = some old → BanLasts time old → BanLasts time (change old)) :
    BannedUntil (book.update address direction change) banned time := by
  refine h.insert fun old hold hlasts => ?_
  rw [hold]
  exact keeps old hold hlasts

lemma BannedUntil.addPeer (h : BannedUntil book banned time) (address : Str) :
    BannedUntil (book.addPeer address) banned time := by
  unfold PeerEntries.addPeer
  split
  · rename_i peer hpeer
    refine h.insert fun old hold hlasts => ?_
    rw [hpeer] at hold
    obtain rfl := Option.some.inj hold
    exact hlasts
  · rename_i hnone
    split
    · exact h
    · exact h.insert fun old hold _ => by rw [hnone] at hold; cases hold

/-- The ban moves with the peer whose address is replaced. -/
lemma BannedUntil.replacePeerAddress (h : BannedUntil book banned time) (source target : Str) :
    BannedUntil (book.replacePeerAddress source target) (if banned = source then target else banned)
      time := by
  unfold PeerEntries.replacePeerAddress
  split
  · rename_i hsame
    subst hsame
    have hbanned : (if banned = source then source else banned) = banned := by
      split
      · rename_i hsource
        exact hsource.symm
      · rfl
    rw [hbanned]
    split
    · exact h
    · exact h.addPeer source
  · rename_i hmoves
    split
    · rename_i hnone
      have hother : banned ≠ source := by
        rintro rfl
        obtain ⟨found, hfound, -⟩ := h
        rw [hnone] at hfound
        cases hfound
      rw [if_neg hother]
      exact h.addPeer target
    · rename_i peer hpeer
      by_cases hsource : banned = source
      · rw [if_pos hsource]
        subst hsource
        obtain ⟨found, hfound, hlasts⟩ := h
        rw [hpeer] at hfound
        obtain rfl := Option.some.inj hfound
        exact ⟨_, Std.ExtTreeMap.getElem?_insert_self, (hlasts.merge _).1⟩
      · rw [if_neg hsource]
        refine (h.erase (Ne.symm hsource)).insert fun old hold hlasts => ?_
        rw [hold]
        exact (hlasts.merge peer).2

end Bans

/-- An operation at a time when a ban still lasts keeps it, unless it removes the peer. -/
lemma BannedUntil.apply {op : PeerOp} {banned moved : Str} {time : ℕ}
    (h : BannedUntil book banned time) (early : ∀ nowMs, op.timeMs = some nowMs → nowMs < time)
    (spares : op.SparesBans book) (follow : op.follow banned = some moved) :
    BannedUntil (op.apply book) moved time := by
  cases op with
  | replacePeerAddress source target =>
    obtain rfl := Option.some.inj follow
    exact h.replacePeerAddress source target
  | removePeer address =>
    simp only [PeerOp.follow] at follow
    split at follow
    · cases follow
    · rename_i hother
      obtain rfl := Option.some.inj follow
      show BannedUntil (book.removePeer address) banned time
      unfold PeerEntries.removePeer
      split
      · exact h.erase (Ne.symm hother)
      · exact h
  | addPeer address =>
    obtain rfl := Option.some.inj follow
    exact h.addPeer address
  | addDiscoveredPeer address nowMs =>
    obtain rfl := Option.some.inj follow
    show BannedUntil (book.addDiscoveredPeer address nowMs) banned time
    unfold PeerEntries.addDiscoveredPeer
    split
    · rename_i peer hpeer
      split
      · exact h
      · refine h.insert fun old hold hlasts => ?_
        rw [hpeer] at hold
        obtain rfl := Option.some.inj hold
        exact hlasts
    · rename_i hnone
      split
      · exact h
      · exact h.insert fun old hold _ => by rw [hnone] at hold; cases hold
  | promoteDiscoveredPeer address =>
    obtain rfl := Option.some.inj follow
    show BannedUntil (book.promoteDiscoveredPeer address) banned time
    unfold PeerEntries.promoteDiscoveredPeer
    split
    · rename_i peer hpeer
      refine h.insert fun old hold hlasts => ?_
      rw [hpeer] at hold
      obtain rfl := Option.some.inj hold
      exact hlasts.contacted
    · exact h
  | pruneStalePeersAt nowMs inboundMaxAgeMs discoveredMaxAgeMs =>
    obtain rfl := Option.some.inj follow
    obtain ⟨peer, hpeer, hlasts⟩ := h
    have hbanned := hlasts.isBannedAt (early nowMs rfl)
    refine ⟨peer, ?_, hlasts⟩
    show (book.pruneStalePeersAt nowMs inboundMaxAgeMs discoveredMaxAgeMs)[banned]? = some peer
    rw [PeerEntries.pruneStalePeersAt, Std.ExtTreeMap.getElem?_filter, Option.pfilter_eq_some_iff]
    refine ⟨hpeer, ?_⟩
    rw [PeerEntry.keptInbound, PeerEntry.keptDiscovered, if_pos (.inr hbanned),
      if_pos (.inr hbanned)]
    rfl
  | observeInboundPeer address =>
    obtain rfl := Option.some.inj follow
    show BannedUntil (book.observeInboundPeer address) banned time
    unfold PeerEntries.observeInboundPeer
    split
    · exact h
    · rename_i hnew
      rw [not_or] at hnew
      refine h.insert fun old hold _ => absurd ?_ hnew.1
      rw [Std.ExtTreeMap.mem_iff_isSome_getElem?, hold]
      rfl
  | removeNeverConnectedPeerAt address nowMs =>
    obtain rfl := Option.some.inj follow
    show BannedUntil (book.removeNeverConnectedPeerAt address nowMs) banned time
    unfold PeerEntries.removeNeverConnectedPeerAt
    split
    · refine h.erase ?_
      rintro rfl
      obtain ⟨peer, hpeer, hlasts⟩ := h
      exact absurd (hlasts.isBannedAt (early nowMs rfl)) (by simp [spares peer hpeer])
    · exact h
  | recordSent address messages nowMs =>
    obtain rfl := Option.some.inj follow
    refine h.update fun old _ hlasts => BanLasts.succeeded ?_ (early nowMs rfl)
    exact hlasts.contacted
  | recordStatus address height tipHash nowMs =>
    obtain rfl := Option.some.inj follow
    exact h.update fun old _ hlasts => BanLasts.succeeded hlasts.contacted (early nowMs rfl)
  | recordInboundStatus address height tipHash nowMs =>
    obtain rfl := Option.some.inj follow
    exact h.update fun old _ hlasts => BanLasts.succeeded hlasts (early nowMs rfl)
  | recordReceived address messages nowMs =>
    obtain rfl := Option.some.inj follow
    exact h.update fun old _ hlasts => BanLasts.succeeded hlasts (early nowMs rfl)
  | recordHello address direction hello =>
    obtain rfl := Option.some.inj follow
    exact h.update fun _ _ hlasts => hlasts
  | recordClockObservation address direction remoteTimeMs localReceiveTimeMs =>
    obtain rfl := Option.some.inj follow
    show BannedUntil (book.recordClockObservation address direction remoteTimeMs
      localReceiveTimeMs) banned time
    unfold PeerEntries.recordClockObservation
    split
    · exact h
    · exact h.update fun _ _ hlasts => hlasts
  | recordError address error nowMs =>
    obtain rfl := Option.some.inj follow
    exact h.update fun _ _ hlasts => hlasts
  | recordInboundError address error nowMs =>
    obtain rfl := Option.some.inj follow
    exact h.update fun _ _ hlasts => hlasts
  | recordMisbehavior address reason nowMs direction =>
    obtain rfl := Option.some.inj follow
    exact h.update fun old hold hlasts => hlasts.misbehaved reason (spares old · hold)

end PeerEntries

/-! ## Runs -/

section Runs

variable [SocketAddrs]

/-- The operations of a peer book. -/
def PeerStep (book : PeerEntries) (op : PeerOp) (book' : PeerEntries) : Prop := book' = op.apply book

/-- An operation whose new peers find room, and which spares bans. -/
def CarefulStep (book : PeerEntries) (op : PeerOp) (book' : PeerEntries) : Prop :=
  PeerStep book op book' ∧ op.FindsRoom book ∧ op.SparesBans book

omit [SocketAddrs] in
/-- Where the peer of an address is found after a number of operations, unless it is removed. -/
def followAll (ops : List PeerOp) (address : Str) : Option Str :=
  ops.foldlM (fun address op => op.follow address) address

/-- Every ban lasts through further operations: until it expires, the peer is banned, under the
address that it has moved to, unless it has been removed explicitly. -/
def BansLast (step : PeerEntries → PeerOp → PeerEntries → Prop) (book : PeerEntries) : Prop :=
  ∀ (later : List PeerOp) (book' : PeerEntries) (banned moved : Str) (time : ℕ),
    Runs.Run step book later book' → book.BannedUntil banned time →
    (∀ op ∈ later, ∀ nowMs, op.timeMs = some nowMs → nowMs < time) →
    followAll later banned = some moved → book'.BannedUntil moved time

lemma bansLast_careful (book : PeerEntries) : BansLast CarefulStep book := by
  intro later book' banned moved time run
  induction run generalizing banned with
  | nil book =>
    intro h _ hmoved
    obtain rfl := Option.some.inj hmoved
    exact h
  | cons head _ ih =>
    intro h early hmoved
    obtain ⟨rfl, -, spares⟩ := head
    rw [List.forall_mem_cons] at early
    rw [followAll, List.foldlM_cons] at hmoved
    obtain ⟨next, hnext, hmoved⟩ := Option.bind_eq_some_iff.mp hmoved
    exact ih next (h.apply early.1 spares hnext) early.2 hmoved

/-- **Caps and bans.** In every run of operations from a book of given addresses in which new peers
find room and bans are spared, no cap is exceeded, and every ban lasts until it expires. -/
theorem caps_and_bans {addresses : List Str} {ops : List PeerOp} {book : PeerEntries}
    (run : Runs.Run CarefulStep (PeerEntries.fromAddresses addresses) ops book) :
    (∀ cap : Cap, book.count cap.counts ≤ cap.limit) ∧ BansLast CarefulStep book := by
  have within : book.WithinCaps := by
    refine run.invariant PeerEntries.WithinCaps ?_ (PeerEntries.fromAddresses_withinCaps addresses)
    rintro before op _ hbefore ⟨rfl, room, -⟩
    exact hbefore.apply room
  exact ⟨within.caps, bansLast_careful book⟩

end Runs

namespace Toy

/-- The socket address of a peer; other texts are not looked at. -/
def peerAddress : Str := str "203.0.113.1:9444"

@[reducible]
def socketAddrs : SocketAddrs where
  parse := fun address =>
    if address = peerAddress then some ⟨.v4 #v[203, 0, 113, 1], 9444⟩ else none

attribute [local instance] socketAddrs

/-- A connection to an unknown peer fails. -/
theorem failedPeer_within : (∀ cap : Cap, PeerEntries.count
      ((PeerEntries.fromAddresses []).recordError peerAddress (str "refused") 0) cap.counts
        ≤ cap.limit)
    ∧ BansLast CarefulStep
      ((PeerEntries.fromAddresses []).recordError peerAddress (str "refused") 0) := by
  have room : (PeerEntries.fromAddresses []).HasRoomFor peerAddress .outbound :=
    PeerEntries.hasRoomFor_of_ne_discovered nofun (by decide +kernel)
  have step : CarefulStep (PeerEntries.fromAddresses [])
      (.recordError peerAddress (str "refused") 0)
      ((PeerEntries.fromAddresses []).recordError peerAddress (str "refused") 0) := by
    refine ⟨rfl, ?_, trivial⟩
    intro address direction hcreates
    obtain ⟨rfl, rfl⟩ := Prod.mk.inj (Option.some.inj hcreates)
    exact .inr room
  exact caps_and_bans (.cons step (.nil _))

/-- As many addresses as a book may hold. -/
def fullAddresses : List Str :=
  (List.range maxTotalPeers).map fun port => str "198.51.100.1:" ++ decimal port

lemma fullAddresses_nodup : fullAddresses.Nodup := by
  apply List.Nodup.map ?_ List.nodup_range
  intro port port' heq
  have hdecimal : decimal port = decimal port' := List.append_cancel_left heq
  have hread := congrArg (fun digits => Nat.ofDigitChars 10 digits 0) hdecimal
  simpa only [decimal, Nat.ofDigitChars_toDigits (by decide : 1 < 10) (le_refl 10)] using hread

lemma fullAddresses_size : ((PeerEntries.fromAddresses fullAddresses).recordError peerAddress
    (str "refused") 0).size = maxTotalPeers + 1 := by
  have hlength : fullAddresses.length = maxTotalPeers := by
    rw [fullAddresses, List.length_map, List.length_range]
  obtain ⟨hsize, hmem⟩ := PeerEntries.fromAddresses_size fullAddresses_nodup hlength.le
  have hnew : peerAddress ∉ PeerEntries.fromAddresses fullAddresses := by
    rw [hmem, fullAddresses, List.mem_map]
    rintro ⟨port, -, heq⟩
    have hprefix := congrArg (List.take 4) heq
    rw [List.take_append_of_le_length (by decide)] at hprefix
    exact absurd hprefix (by decide)
  rw [PeerEntries.recordError, PeerEntries.update, Std.ExtTreeMap.size_insert,
    if_neg (mt Std.ExtTreeMap.contains_iff_mem.mp hnew), hsize, hlength]

/-- The connection to one peer more than the book may hold fails, and the failure is recorded. -/
theorem caps_exceeded : ∃ addresses ops book,
    Runs.Run PeerStep (PeerEntries.fromAddresses addresses) ops book
      ∧ ¬ ((∀ cap : Cap, PeerEntries.count book cap.counts ≤ cap.limit) ∧ BansLast PeerStep book) := by
  refine ⟨fullAddresses, [.recordError peerAddress (str "refused") 0], _, .cons rfl (.nil _), ?_⟩
  rintro ⟨hcaps, -⟩
  have htotal := PeerEntries.count_all.symm.trans_le (hcaps .total)
  have hsize := fullAddresses_size
  exact absurd (hsize.symm.trans_le htotal) (by decide)

end Toy

end Iuna
