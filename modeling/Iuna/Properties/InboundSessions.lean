import Iuna.Adapters.InboundLimiter
import Iuna.Library.Runs
import Iuna.Library.SlidingWindow

/-!
# The limits on inbound sessions

Over every run of connections and ended sessions the limiter counts the permits that are held, so
its caps bound the sessions.  While the clock does not go back it is the plain policy: it admits a
peer by the permits held and by the connections accepted in the window, whatever it has pruned.
-/

namespace Iuna

open SlidingWindow (Keeps AtMost stale fresh)

namespace InboundConnectionLimiter

variable {limiter : InboundConnectionLimiter} {ip other : IpAddr} {nowMs : ℕ}

@[simp] lemma peer_setPeer (value : InboundPeerLimit) :
    (limiter.setPeer ip value).peer other = if other = ip then value else limiter.peer other := by
  simp only [peer, setPeer, Function.update_apply]
  split <;> rfl

@[simp] lemma active_setPeer (value : InboundPeerLimit) :
    (limiter.setPeer ip value).active = limiter.active := rfl

/-- An entry that is not retained is as good as a new one. -/
@[simp] lemma peer_pruneStaleAccepts :
    (limiter.pruneStaleAccepts nowMs).peer ip = prunePeerAccepts (limiter.peer ip) nowMs := by
  simp only [peer, pruneStaleAccepts]
  cases limiter.peers ip with
  | none => rfl
  | some value =>
    simp only [Option.bind_some, Option.getD_some, retainPeer]
    split
    · rfl
    · rename_i hdropped
      obtain ⟨hactive, haccepts⟩ := not_or.mp hdropped
      rw [Option.getD_none, InboundPeerLimit.default, ← Nat.eq_zero_of_not_pos hactive,
        ← not_ne_iff.mp haccepts]

@[simp] lemma active_pruneStaleAccepts :
    (limiter.pruneStaleAccepts nowMs).active = limiter.active := rfl

lemma prunePeerAccepts_twice (value : InboundPeerLimit) :
    prunePeerAccepts (prunePeerAccepts value nowMs) nowMs = prunePeerAccepts value nowMs := by
  simp only [prunePeerAccepts]
  exact congrArg _ (@SlidingWindow.prune_prune inboundAcceptRateWindowMs nowMs nowMs le_rfl _)

/-- What `try_acquire` decides by: the numbers of permits and of accepts that it has counted. -/
lemma tryAcquire_snd (limiter : InboundConnectionLimiter) (ip : IpAddr) (nowMs : ℕ) :
    (limiter.tryAcquire ip nowMs).2 =
      if maxInboundSessions ≤ limiter.active then .error .globalActive
      else if maxInboundSessionsPerIp ≤ (limiter.peer ip).active then .error .peerActive
      else if maxInboundAcceptsPerIpPerWindow
          ≤ (prunePeerAccepts (limiter.peer ip) nowMs).acceptedAtMs.length then .error .peerRate
      else .ok () := by
  simp only [tryAcquire, active_pruneStaleAccepts, peer_pruneStaleAccepts, prunePeerAccepts_twice]
  have hactive : (prunePeerAccepts (limiter.peer ip) nowMs).active = (limiter.peer ip).active := rfl
  rw [hactive]
  split_ifs <;> rfl

/-- What `try_acquire` leaves: every entry pruned, and an accepted connection counted. -/
lemma tryAcquire_fst (limiter : InboundConnectionLimiter) (ip : IpAddr) (nowMs : ℕ) :
    (limiter.tryAcquire ip nowMs).1.active = limiter.active
        + (if (limiter.tryAcquire ip nowMs).2 = .ok () then 1 else 0) ∧
      ∀ other, (limiter.tryAcquire ip nowMs).1.peer other =
        if other = ip ∧ (limiter.tryAcquire ip nowMs).2 = .ok () then
          ⟨(limiter.peer ip).active + 1,
            (prunePeerAccepts (limiter.peer ip) nowMs).acceptedAtMs ++ [nowMs]⟩
        else prunePeerAccepts (limiter.peer other) nowMs := by
  have hactive : (prunePeerAccepts (limiter.peer ip) nowMs).active = (limiter.peer ip).active := rfl
  simp only [tryAcquire, active_pruneStaleAccepts, peer_pruneStaleAccepts, prunePeerAccepts_twice,
    hactive]
  by_cases hglobal : maxInboundSessions ≤ limiter.active
  · simp [if_pos hglobal]
  · simp only [if_neg hglobal]
    by_cases hpeer : maxInboundSessionsPerIp ≤ (limiter.peer ip).active
    · refine ⟨by simp [if_pos hpeer], fun other => ?_⟩
      by_cases heq : other = ip <;> simp [if_pos hpeer, heq]
    · simp only [if_neg hpeer]
      by_cases hrate : maxInboundAcceptsPerIpPerWindow
          ≤ (prunePeerAccepts (limiter.peer ip) nowMs).acceptedAtMs.length
      · refine ⟨by simp [if_pos hrate], fun other => ?_⟩
        by_cases heq : other = ip <;> simp [if_pos hrate, heq]
      · simp only [if_neg hrate, and_true, if_true]
        refine ⟨rfl, fun other => ?_⟩
        change (setPeer _ _ _).peer other = _
        simp only [peer_setPeer, peer_pruneStaleAccepts]

/-- An entry that `try_acquire` leaves counts a permit or an accept. -/
lemma tryAcquire_entries {value : InboundPeerLimit}
    (entry : (limiter.tryAcquire ip nowMs).1.peers other = some value) :
    0 < value.active ∨ value.acceptedAtMs ≠ [] := by
  have hpruned : ∀ {value}, (limiter.pruneStaleAccepts nowMs).peers other = some value →
      0 < value.active ∨ value.acceptedAtMs ≠ [] := by
    intro value h
    obtain ⟨old, -, hold⟩ := Option.bind_eq_some_iff.mp h
    simp only [retainPeer] at hold
    split at hold
    · obtain rfl := Option.some.inj hold
      assumption
    · cases hold
  have hset : ∀ {limiter' : InboundConnectionLimiter} {new : InboundPeerLimit},
      limiter'.peers = (limiter.pruneStaleAccepts nowMs).peers →
      (0 < new.active ∨ new.acceptedAtMs ≠ []) →
      (limiter'.setPeer ip new).peers other = some value →
      0 < value.active ∨ value.acceptedAtMs ≠ [] := by
    intro limiter' new hpeers hnew h
    simp only [setPeer, Function.update_apply] at h
    split at h
    · obtain rfl := Option.some.inj h
      exact hnew
    · exact hpruned (hpeers ▸ h)
  unfold tryAcquire at entry
  dsimp only at entry
  split at entry
  · exact hpruned entry
  · split at entry
    · rename_i hactive
      exact hset rfl (.inl (lt_of_lt_of_le (by decide) hactive)) entry
    · split at entry
      · rename_i hrate
        exact hset rfl (.inr (List.ne_nil_of_length_pos (lt_of_lt_of_le (by decide) hrate))) entry
      · exact hset rfl (.inl (Nat.succ_pos _)) entry

/-- What `release` leaves, where it counts a permit of the address. -/
lemma release_eq (held : 0 < limiter.active) (peerHeld : 0 < (limiter.peer ip).active) :
    (limiter.release ip).active = limiter.active - 1 ∧
      ∀ other, (limiter.release ip).peer other =
        if other = ip then { limiter.peer ip with active := (limiter.peer ip).active - 1 }
        else limiter.peer other := by
  have hpeers : limiter.peers ip = some (limiter.peer ip) := by
    simp only [peer] at peerHeld ⊢
    cases hentry : limiter.peers ip with
    | none =>
      rw [hentry] at peerHeld
      exact absurd peerHeld (by decide)
    | some value => rfl
  simp only [release, if_pos held, hpeers, if_pos peerHeld]
  exact ⟨rfl, fun other => peer_setPeer _⟩

end InboundConnectionLimiter

namespace InboundSessions

open InboundConnectionLimiter

variable {sessions sessions' : InboundSessions} {ip other : IpAddr} {nowMs : ℕ}

/-! ## What the limiter counts -/

/-- The limiter counts the permits that are held, within its caps. -/
structure Counts (sessions : InboundSessions) : Prop where
  total : sessions.limiter.active = sessions.permits.length
  peers : ∀ ip, (sessions.limiter.peer ip).active = sessions.permits.count ip
  cap : sessions.permits.length ≤ maxInboundSessions
  peerCap : ∀ ip, sessions.permits.count ip ≤ maxInboundSessionsPerIp

/-- The sessions after an attempt, by its outcome. -/
lemma tryAcquireInboundSession_eq (sessions : InboundSessions) (ip : IpAddr) (nowMs : ℕ) :
    sessions.tryAcquireInboundSession ip nowMs =
      if (sessions.limiter.tryAcquire ip nowMs).2 = .ok () then
        ⟨(sessions.limiter.tryAcquire ip nowMs).1, ip :: sessions.permits,
          sessions.accepts ++ [(ip, nowMs)]⟩
      else { sessions with limiter := (sessions.limiter.tryAcquire ip nowMs).1 } := by
  unfold tryAcquireInboundSession
  generalize sessions.limiter.tryAcquire ip nowMs = outcome
  obtain ⟨limiter, rejection | _⟩ := outcome
  · rw [if_neg (by simp)]
  · rw [if_pos rfl]

lemma Counts.connect (h : sessions.Counts) (ip : IpAddr) (nowMs : ℕ) :
    (sessions.tryAcquireInboundSession ip nowMs).Counts := by
  obtain ⟨hactive, hpeers⟩ := tryAcquire_fst sessions.limiter ip nowMs
  have houtcome := tryAcquire_snd sessions.limiter ip nowMs
  rw [tryAcquireInboundSession_eq]
  by_cases hok : (sessions.limiter.tryAcquire ip nowMs).2 = .ok ()
  · rw [hok] at houtcome
    split_ifs at houtcome with hglobal hpeer hrate
    rw [h.total] at hglobal
    rw [h.peers] at hpeer
    rw [if_pos hok] at hactive
    simp only [hok, and_true] at hpeers
    rw [if_pos hok]
    refine ⟨?_, fun other => ?_, ?_, fun other => ?_⟩
    · rw [hactive, h.total, List.length_cons]
    · dsimp only
      rw [hpeers, List.count_cons]
      by_cases heq : other = ip
      · subst heq
        simp [h.peers]
      · simp [heq, Ne.symm heq, prunePeerAccepts, h.peers]
    · rw [List.length_cons]
      omega
    · have hcap := h.peerCap other
      dsimp only
      rw [List.count_cons]
      by_cases heq : other = ip
      · subst heq
        simp only [beq_self_eq_true, if_true]
        omega
      · simpa [Ne.symm heq] using hcap
  · rw [if_neg hok] at hactive
    simp only [hok, and_false, if_false] at hpeers
    rw [if_neg hok]
    refine ⟨by rw [hactive, Nat.add_zero, h.total], fun other => ?_, h.cap, h.peerCap⟩
    rw [hpeers]
    exact h.peers other

lemma Counts.finish (h : sessions.Counts) (held : ip ∈ sessions.permits) :
    (sessions.dropPermit ip).Counts := by
  have hpositive : 0 < sessions.limiter.active := by
    rw [h.total]
    exact List.length_pos_of_mem held
  have hpeer : 0 < (sessions.limiter.peer ip).active := by
    rw [h.peers]
    exact List.count_pos_iff.mpr held
  obtain ⟨hactive, hpeers⟩ := release_eq hpositive hpeer
  refine ⟨?_, fun other => ?_, ?_, fun other => ?_⟩
  · dsimp only [dropPermit]
    rw [hactive, h.total, List.length_erase_of_mem held]
  · dsimp only [dropPermit]
    rw [hpeers, List.count_erase]
    by_cases heq : other = ip
    · subst heq
      simp [h.peers]
    · simp [heq, Ne.symm heq, h.peers]
  · exact (List.length_erase_le).trans h.cap
  · exact (List.erase_sublist.count_le other).trans (h.peerCap other)

lemma Counts.step {event : InboundEvent} (h : sessions.Counts)
    (step : InboundStep sessions event sessions') : sessions'.Counts := by
  cases event with
  | connect ip nowMs =>
    obtain rfl : sessions' = sessions.tryAcquireInboundSession ip nowMs := step
    exact h.connect ip nowMs
  | finish ip =>
    obtain ⟨held, rfl⟩ := step
    exact h.finish held

lemma counts_empty : empty.Counts :=
  ⟨rfl, fun _ => rfl, Nat.zero_le _, fun _ => Nat.zero_le _⟩

lemma counts_of_run {events : List InboundEvent}
    (run : Runs.Run InboundStep empty events sessions) : sessions.Counts :=
  run.invariant Counts (fun _ _ _ h step => h.step step) counts_empty

/-- **The caps.** In every run the limiter counts exactly the permits that are held, all of them and
those of every address, and neither number is above its cap. -/
theorem limiter_capped {events : List InboundEvent}
    (run : Runs.Run InboundStep empty events sessions) (ip : IpAddr) :
    sessions.limiter.active = sessions.permits.length ∧
      (sessions.limiter.peer ip).active = sessions.permits.count ip ∧
      sessions.permits.length ≤ maxInboundSessions ∧
      sessions.permits.count ip ≤ maxInboundSessionsPerIp := by
  have counts := counts_of_run run
  exact ⟨counts.total, counts.peers ip, counts.cap, counts.peerCap ip⟩

/-! ## The window -/

/-- The plain policy: the permits that are held, and the connections accepted in the window. -/
def admission (sessions : InboundSessions) (ip : IpAddr) (nowMs : ℕ) :
    Except InboundSessionRejection Unit :=
  if maxInboundSessions ≤ sessions.permits.length then .error .globalActive
  else if maxInboundSessionsPerIp ≤ sessions.permits.count ip then .error .peerActive
  else if maxInboundAcceptsPerIpPerWindow
      ≤ (fresh inboundAcceptRateWindowMs nowMs (sessions.acceptsOf ip)).length then
    .error .peerRate
  else .ok ()

/-- The limiter keeps the accepts of every peer, and no window has too many of them. -/
structure Windows (clock : ℕ) (sessions : InboundSessions) : Prop where
  keeps : ∀ ip, Keeps inboundAcceptRateWindowMs clock (sessions.limiter.peer ip).acceptedAtMs
    (sessions.acceptsOf ip)
  past : ∀ ip, ∀ time ∈ sessions.acceptsOf ip, time ≤ clock
  rate : ∀ ip, AtMost inboundAcceptRateWindowMs maxInboundAcceptsPerIpPerWindow
    (sessions.acceptsOf ip)

lemma Windows.later {clock : ℕ} (h : Windows clock sessions) (later : clock ≤ nowMs) :
    Windows nowMs sessions :=
  ⟨fun ip => (h.keeps ip).later later, fun ip time htime => (h.past ip time htime).trans later,
    h.rate⟩

/-- The limiter admits by the policy. -/
lemma Windows.admits (counts : sessions.Counts) (h : Windows nowMs sessions) (ip : IpAddr) :
    (sessions.limiter.tryAcquire ip nowMs).2 = sessions.admission ip nowMs := by
  have hlength : (prunePeerAccepts (sessions.limiter.peer ip) nowMs).acceptedAtMs.length
      = (fresh inboundAcceptRateWindowMs nowMs (sessions.acceptsOf ip)).length :=
    (h.keeps ip).length
  rw [tryAcquire_snd, admission, counts.total, counts.peers, hlength]

lemma acceptsOf_append (limiter : InboundConnectionLimiter) (permits : List IpAddr)
    (accepts : List (IpAddr × ℕ)) :
    acceptsOf ⟨limiter, permits, accepts ++ [(ip, nowMs)]⟩ other =
      acceptsOf ⟨limiter, permits, accepts⟩ other ++ if other = ip then [nowMs] else [] := by
  by_cases heq : other = ip
  · simp [acceptsOf, heq]
  · simp [acceptsOf, heq, Ne.symm heq]

lemma Windows.connect (counts : sessions.Counts) (h : Windows nowMs sessions) (ip : IpAddr) :
    Windows nowMs (sessions.tryAcquireInboundSession ip nowMs) := by
  obtain ⟨-, hpeers⟩ := tryAcquire_fst sessions.limiter ip nowMs
  have houtcome := h.admits counts ip
  rw [tryAcquireInboundSession_eq]
  by_cases hok : (sessions.limiter.tryAcquire ip nowMs).2 = .ok ()
  · rw [hok, admission] at houtcome
    split_ifs at houtcome with hglobal hpeer hrate
    simp only [hok, and_true] at hpeers
    simp only [if_pos hok]
    have haccepts : ∀ other, acceptsOf ⟨(sessions.limiter.tryAcquire ip nowMs).1,
        ip :: sessions.permits, sessions.accepts ++ [(ip, nowMs)]⟩ other
          = sessions.acceptsOf other ++ if other = ip then [nowMs] else [] :=
      fun other => acceptsOf_append _ _ _
    refine ⟨fun other => ?_, fun other => ?_, fun other => ?_⟩
    · rw [haccepts]
      dsimp only
      rw [hpeers]
      by_cases heq : other = ip
      · subst heq
        rw [if_pos rfl, if_pos rfl]
        exact (h.keeps other).prune.push
      · rw [if_neg heq, if_neg heq, List.append_nil]
        exact (h.keeps other).prune
    · rw [haccepts]
      intro time htime
      rcases List.mem_append.mp htime with hold | hnew
      · exact h.past other time hold
      · split at hnew
        · exact (List.mem_singleton.mp hnew).le
        · cases hnew
    · rw [haccepts]
      by_cases heq : other = ip
      · subst heq
        simpa only [if_true] using (h.rate other).push (h.past other) (not_le.mp hrate)
      · simpa only [if_neg heq, List.append_nil] using h.rate other
  · simp only [hok, and_false, if_false] at hpeers
    simp only [if_neg hok]
    refine ⟨fun other => ?_, h.past, h.rate⟩
    dsimp only
    rw [hpeers]
    exact (h.keeps other).prune

lemma Windows.finish {clock : ℕ} (counts : sessions.Counts) (h : Windows clock sessions)
    (held : ip ∈ sessions.permits) : Windows clock (sessions.dropPermit ip) := by
  have hpositive : 0 < sessions.limiter.active := by
    rw [counts.total]
    exact List.length_pos_of_mem held
  have hpeer : 0 < (sessions.limiter.peer ip).active := by
    rw [counts.peers]
    exact List.count_pos_iff.mpr held
  obtain ⟨-, hpeers⟩ := release_eq hpositive hpeer
  refine ⟨fun other => ?_, h.past, h.rate⟩
  dsimp only [dropPermit]
  rw [hpeers]
  split
  · rename_i heq
    subst heq
    exact h.keeps other
  · exact h.keeps other

/-- The clock does not go back. -/
def Timed (events : List InboundEvent) : Prop :=
  (events.filterMap InboundEvent.time).Pairwise (· ≤ ·)

instance (events : List InboundEvent) : Decidable (Timed events) :=
  inferInstanceAs (Decidable (List.Pairwise _ _))

lemma windows_of_run {events : List InboundEvent}
    (run : Runs.Run InboundStep empty events sessions) (timed : Timed events) {clock : ℕ}
    (past : ∀ time ∈ events.filterMap InboundEvent.time, time ≤ clock) :
    Windows clock sessions := by
  suffices h : sessions.Counts ∧ (Timed events → ∀ clock,
      (∀ time ∈ events.filterMap InboundEvent.time, time ≤ clock) → Windows clock sessions) from
    h.2 timed clock past
  clear timed past
  refine run.track (fun done sessions => sessions.Counts ∧ (Timed done → ∀ clock,
      (∀ time ∈ done.filterMap InboundEvent.time, time ≤ clock) → Windows clock sessions)) ?_ ?_
  · rintro done before event after ⟨counts, h⟩ step
    refine ⟨counts.step step, fun timed clock past => ?_⟩
    rw [Timed, List.filterMap_append] at timed
    rw [List.filterMap_append] at past
    obtain ⟨hbefore, -, hlast⟩ := List.pairwise_append.mp timed
    cases event with
    | connect ip nowMs =>
      obtain rfl : after = before.tryAcquireInboundSession ip nowMs := step
      have hnow := h hbefore nowMs fun time htime => hlast time htime nowMs (by
        simp [InboundEvent.time])
      exact (hnow.connect counts ip).later (past nowMs (by simp [InboundEvent.time]))
    | finish ip =>
      obtain ⟨held, rfl⟩ := step
      exact (h hbefore clock fun time htime => past time
        (List.mem_append_left _ htime)).finish counts held
  · refine ⟨counts_empty, fun _ clock _ => ⟨fun ip => .nil _ _, fun ip time htime => ?_, ?_⟩⟩
    · cases htime
    · exact fun ip start => Nat.zero_le _

/-- **The policy.** While the clock does not go back, the limiter answers every connection as the
plain policy does, and no window has more accepted connections of one peer than its cap. -/
theorem limiter_follows_policy {events : List InboundEvent}
    (run : Runs.Run InboundStep empty events sessions) (timed : Timed events)
    (past : ∀ time ∈ events.filterMap InboundEvent.time, time ≤ nowMs) (ip : IpAddr) :
    (sessions.limiter.tryAcquire ip nowMs).2 = sessions.admission ip nowMs ∧
      AtMost inboundAcceptRateWindowMs maxInboundAcceptsPerIpPerWindow
        (sessions.acceptsOf ip) := by
  have windows := windows_of_run run timed past
  exact ⟨windows.admits (counts_of_run run) ip, windows.rate ip⟩

/-- **What is stored.** While the clock does not go back, a connection leaves no entry but of peers
that hold a permit or have been accepted in the window. -/
theorem limiter_forgets {events : List InboundEvent}
    (run : Runs.Run InboundStep empty events sessions) (timed : Timed events)
    (past : ∀ time ∈ events.filterMap InboundEvent.time, time ≤ nowMs) {ip other : IpAddr}
    (entry : (sessions.tryAcquireInboundSession ip nowMs).limiter.peers other ≠ none) :
    other ∈ (sessions.tryAcquireInboundSession ip nowMs).permits ∨
      fresh inboundAcceptRateWindowMs nowMs
        ((sessions.tryAcquireInboundSession ip nowMs).acceptsOf other) ≠ [] := by
  have counts := counts_of_run run
  have windows := windows_of_run run timed past
  have counts' := counts.connect ip nowMs
  have windows' := windows.connect counts ip
  obtain ⟨value, hvalue⟩ := Option.ne_none_iff_exists'.mp entry
  have hpeer : (sessions.tryAcquireInboundSession ip nowMs).limiter.peer other = value := by
    rw [peer, hvalue, Option.getD_some]
  have hlimiter : (sessions.tryAcquireInboundSession ip nowMs).limiter
      = (sessions.limiter.tryAcquire ip nowMs).1 := by
    rw [tryAcquireInboundSession_eq]
    split <;> rfl
  rw [hlimiter] at hvalue
  rcases tryAcquire_entries hvalue with hactive | haccepts
  · left
    rw [← hpeer, counts'.peers] at hactive
    exact List.count_pos_iff.mp hactive
  · right
    rw [← (windows'.keeps other).window nowMs le_rfl, hpeer]
    -- the entry has been pruned, and a new time is fresh
    rw [hlimiter, (tryAcquire_fst sessions.limiter ip nowMs).2] at hpeer
    split at hpeer
    · obtain rfl := hpeer
      have hnew : stale inboundAcceptRateWindowMs nowMs nowMs = false := by
        simp [stale, inboundAcceptRateWindowMs]
      rw [SlidingWindow.prune, List.dropWhile_append]
      split <;> simp [hnew]
    · obtain rfl := hpeer
      rw [show SlidingWindow.prune inboundAcceptRateWindowMs nowMs
        (prunePeerAccepts (sessions.limiter.peer other) nowMs).acceptedAtMs
          = (prunePeerAccepts (sessions.limiter.peer other) nowMs).acceptedAtMs from
        SlidingWindow.prune_prune le_rfl _]
      exact haccepts

end InboundSessions

end Iuna

namespace Iuna.Toy

open InboundSessions SlidingWindow

def localhost : IpAddr := .v4 #v[127, 0, 0, 1]

/-- A session that begins and ends, and a second one after the window. -/
lemma localhost_run : Runs.Run InboundStep empty
    [.connect localhost 5, .finish localhost, .connect localhost 20007]
    (((empty.tryAcquireInboundSession localhost 5).dropPermit
      localhost).tryAcquireInboundSession localhost 20007) :=
  .cons rfl (.cons ⟨by decide, rfl⟩ (.cons rfl (.nil _)))

/-- One session is left of two, and one permit. -/
theorem limiter_capped_localhost :
    let sessions := ((empty.tryAcquireInboundSession localhost 5).dropPermit
      localhost).tryAcquireInboundSession localhost 20007
    sessions.limiter.active = sessions.permits.length ∧
      (sessions.limiter.peer localhost).active = sessions.permits.count localhost ∧
      sessions.permits.length ≤ maxInboundSessions ∧
      sessions.permits.count localhost ≤ maxInboundSessionsPerIp :=
  limiter_capped localhost_run localhost

/-- The third attempt comes when the first is older than the window. -/
theorem limiter_follows_policy_localhost :
    let sessions := ((empty.tryAcquireInboundSession localhost 5).dropPermit
      localhost).tryAcquireInboundSession localhost 20007
    (sessions.limiter.tryAcquire localhost 20009).2 = sessions.admission localhost 20009 ∧
      AtMost inboundAcceptRateWindowMs maxInboundAcceptsPerIpPerWindow
        (sessions.acceptsOf localhost) :=
  limiter_follows_policy localhost_run (by decide) (by decide) localhost

/-- An entry that stays has a permit or a recent attempt. -/
theorem limiter_forgets_localhost :
    let sessions := (((empty.tryAcquireInboundSession localhost 5).dropPermit
      localhost).tryAcquireInboundSession localhost 20007).tryAcquireInboundSession localhost 20009
    localhost ∈ sessions.permits ∨
      fresh inboundAcceptRateWindowMs 20009 (sessions.acceptsOf localhost) ≠ [] :=
  limiter_forgets localhost_run (by decide) (by decide) (by decide)

end Iuna.Toy
