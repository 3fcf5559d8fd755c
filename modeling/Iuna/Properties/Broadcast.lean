import Iuna.App.Gossip
import Iuna.Library.Filling

/-!
# Broadcasts

The batches of a broadcast carry the whole queue unless an envelope is too large for a line.  A
session takes them all exactly if its permits and those of all sessions cover their bytes and its
channel has a place for each batch (`sendBatches_all_iff`).  As the batches are filled greedily, there
are as few of them as possible, so in terms of the queue: the queue can be cut into as many groups
of the size of a batch as the channel has places (`broadcast_delivers_iff`).
-/

namespace Iuna

open Outcome

/-! ## Sessions -/

/-- The bytes of batches. -/
def batchBytes (batches : List (List GossipEnvelope × ℕ)) : ℕ := (batches.map Prod.snd).sum

/-- A session and the permits of all sessions take batches of some number and some bytes. -/
structure GossipSession.Takes (session : GossipSession) (globalBytes count bytes : ℕ) : Prop where
  global : bytes ≤ globalBytes
  own : bytes ≤ session.queueBytes
  opened : 0 < count → session.isClosed = false
  slots : count ≤ session.freeSlots

/-- A session is sent all batches exactly if there are permits and places for them. -/
lemma sendBatches_all_iff (batches : List (List GossipEnvelope × ℕ)) (session : GossipSession)
    (globalBytes : ℕ) :
    (sendBatches batches session globalBytes).sent = batches.map Prod.fst ↔
      session.Takes globalBytes batches.length (batchBytes batches) := by
  induction batches generalizing session globalBytes with
  | nil => exact iff_of_true rfl ⟨Nat.zero_le _, Nat.zero_le _, nofun, Nat.zero_le _⟩
  | cons batch batches ih =>
    obtain ⟨envelopes, bytes⟩ := batch
    have hbytes : batchBytes ((envelopes, bytes) :: batches) = bytes + batchBytes batches := rfl
    rw [sendBatches, List.map_cons, List.length_cons, hbytes]
    split_ifs with hglobal hown hclosed hfull
    · exact iff_of_false (by simp) fun takes => by
        have := takes.global
        omega
    · exact iff_of_false (by simp) fun takes => by
        have := takes.own
        omega
    · exact iff_of_false (by simp) fun takes => by
        have := takes.opened (Nat.succ_pos _)
        simp [hclosed] at this
    · exact iff_of_false (by simp) fun takes => by
        have := takes.slots
        omega
    · simp only [List.cons.injEq, true_and, ih]
      constructor
      · intro takes
        have hrest := takes.global
        have hrestOwn := takes.own
        have hslots := takes.slots
        dsimp only at hrestOwn hslots
        exact ⟨by omega, by omega, fun _ => Bool.eq_false_of_not_eq_true hclosed, by omega⟩
      · intro takes
        have hrest := takes.global
        have hrestOwn := takes.own
        have hslots := takes.slots
        exact ⟨by omega, by dsimp only; omega, fun _ => Bool.eq_false_of_not_eq_true hclosed,
          by dsimp only; omega⟩

lemma sendBatches_globalBytes {batches : List (List GossipEnvelope × ℕ)} {session : GossipSession}
    {globalBytes : ℕ}
    (all : (sendBatches batches session globalBytes).sent = batches.map Prod.fst) :
    (sendBatches batches session globalBytes).globalBytes = globalBytes - batchBytes batches := by
  induction batches generalizing session globalBytes with
  | nil => rfl
  | cons batch batches ih =>
    obtain ⟨envelopes, bytes⟩ := batch
    have hbytes : batchBytes ((envelopes, bytes) :: batches) = bytes + batchBytes batches := rfl
    have takes := (sendBatches_all_iff _ _ _).mp all
    rw [hbytes, List.length_cons] at takes
    have hglobal : ¬ globalBytes < bytes := by
      have := takes.global
      omega
    have hown : ¬ session.queueBytes < bytes := by
      have := takes.own
      omega
    have hclosed : ¬ session.isClosed = true := by
      rw [takes.opened (Nat.succ_pos _)]
      exact Bool.false_ne_true
    have hfull : ¬ session.freeSlots = 0 := by
      have := takes.slots
      omega
    rw [sendBatches, if_neg hglobal, if_neg hown, if_neg hclosed, if_neg hfull, List.map_cons,
      List.cons.injEq] at all
    rw [sendBatches, if_neg hglobal, if_neg hown, if_neg hclosed, if_neg hfull, hbytes]
    dsimp only
    rw [ih all.2, Nat.sub_sub]

/-- The sessions that a broadcast serves. -/
def served (sessions : List GossipSession) : List GossipSession :=
  sessions.filter fun session => session.isBanned = false

/-- All sessions but those of banned peers are sent all batches exactly if there are permits for
all of them, and places in each. -/
lemma deliverBatches_all_iff (batches : List (List GossipEnvelope × ℕ))
    (sessions : List GossipSession) (globalBytes : ℕ) :
    (∀ delivery ∈ deliverBatches batches sessions globalBytes,
        delivery.sent = batches.map Prod.fst) ↔
      (served sessions).length * batchBytes batches ≤ globalBytes
        ∧ ∀ session ∈ served sessions,
          session.Takes (batchBytes batches) batches.length (batchBytes batches) := by
  induction sessions generalizing globalBytes with
  | nil => simp [deliverBatches, served]
  | cons session sessions ih =>
    rw [deliverBatches]
    by_cases hbanned : session.isBanned = true
    · have hserved : served (session :: sessions) = served sessions := by simp [served, hbanned]
      rw [if_pos hbanned, hserved]
      exact ih globalBytes
    · have hserved : served (session :: sessions) = session :: served sessions := by
        simp [served, hbanned]
      rw [if_neg hbanned, hserved, List.length_cons, List.forall_mem_cons, List.forall_mem_cons,
        ih, Nat.succ_mul, sendBatches_all_iff]
      constructor
      · rintro ⟨takes, hrest, hall⟩
        rw [sendBatches_globalBytes ((sendBatches_all_iff _ _ _).mpr takes)] at hrest
        have hglobal := takes.global
        exact ⟨by omega, ⟨le_rfl, takes.own, takes.opened, takes.slots⟩, hall⟩
      · rintro ⟨hglobal, takes, hall⟩
        have htakes : session.Takes globalBytes batches.length (batchBytes batches) :=
          ⟨by omega, takes.own, takes.opened, takes.slots⟩
        refine ⟨htakes, ?_, hall⟩
        rw [sendBatches_globalBytes ((sendBatches_all_iff _ _ _).mpr htakes)]
        omega

section Batches

variable [SerdeJson]

/-! ## Batches -/

/-- The bytes of the lines of envelopes. -/
def lineBytes (envelopes : List GossipEnvelope) : ℕ :=
  (envelopes.map fun envelope => envelope.encodedLen + 1).sum

/-- An envelope too large for a line fails all batches; otherwise nothing is left out. -/
lemma gossipBatchesFrom_eq_ok {envelopes : List GossipEnvelope}
    {batches result : List (List GossipEnvelope × ℕ)} {batch : List GossipEnvelope}
    {batchBytes : ℕ} (h : gossipBatchesFrom envelopes batches batch batchBytes = .ok result) :
    (∀ envelope ∈ envelopes, envelope.encodedLen ≤ maxGossipLineBytes)
      ∧ result.flatMap Prod.fst = batches.flatMap Prod.fst ++ batch ++ envelopes := by
  induction envelopes generalizing batches batch batchBytes with
  | nil =>
    simp only [gossipBatchesFrom, pure_eq_ok] at h
    subst h
    cases batch with
    | nil => simp
    | cons envelope batch => simp
  | cons envelope envelopes ih =>
    simp only [gossipBatchesFrom, bind_eq_ok, bailIf_eq_ok, not_lt] at h
    obtain ⟨_, hlen, h⟩ := h
    have hfits : envelope.encodedLen ≤ maxGossipLineBytes := by omega
    split at h
    · obtain ⟨hrest, hresult⟩ := ih h
      refine ⟨List.forall_mem_cons.mpr ⟨hfits, hrest⟩, ?_⟩
      rw [hresult]
      simp
    · obtain ⟨hrest, hresult⟩ := ih h
      refine ⟨List.forall_mem_cons.mpr ⟨hfits, hrest⟩, ?_⟩
      rw [hresult]
      simp

lemma gossipBatchesFrom_succeeds {envelopes : List GossipEnvelope}
    (fits : ∀ envelope ∈ envelopes, envelope.encodedLen ≤ maxGossipLineBytes)
    (batches : List (List GossipEnvelope × ℕ)) (batch : List GossipEnvelope) (batchBytes : ℕ) :
    ∃ result, gossipBatchesFrom envelopes batches batch batchBytes = .ok result := by
  induction envelopes generalizing batches batch batchBytes with
  | nil => exact ⟨_, rfl⟩
  | cons envelope envelopes ih =>
    rw [List.forall_mem_cons] at fits
    have hlen : ¬ maxGossipLineBytes + 1 < envelope.encodedLen + 1 := by
      have := fits.1
      omega
    simp only [gossipBatchesFrom, bind_eq_ok, bailIf_eq_ok]
    by_cases hfull : batch.isEmpty = false
        ∧ maxOutboundBatchBytes < batchBytes + (envelope.encodedLen + 1)
    · obtain ⟨result, hresult⟩ := ih fits.2 (batches ++ [(batch, batchBytes)]) [envelope]
        (envelope.encodedLen + 1)
      exact ⟨result, ⟨⟩, hlen, by rw [if_pos hfull]; exact hresult⟩
    · obtain ⟨result, hresult⟩ := ih fits.2 batches (batch ++ [envelope])
        (batchBytes + (envelope.encodedLen + 1))
      exact ⟨result, ⟨⟩, hlen, by rw [if_neg hfull]; exact hresult⟩

/-- A batch is not empty, has the bytes of its lines, and is within the limit of a batch. -/
structure IsBatch (batch : List GossipEnvelope × ℕ) : Prop where
  nonempty : batch.1 ≠ []
  bytes : batch.2 = lineBytes batch.1
  limit : batch.2 ≤ maxOutboundBatchBytes

/-- From an open batch on, the batches are batches and as many as the greedy cut has groups. -/
lemma gossipBatchesFrom_opened {envelopes : List GossipEnvelope}
    {batches result : List (List GossipEnvelope × ℕ)} {batch : List GossipEnvelope}
    {batchBytes : ℕ} (h : gossipBatchesFrom envelopes batches batch batchBytes = .ok result)
    (closed : ∀ batch ∈ batches, IsBatch batch) (opened : IsBatch (batch, batchBytes)) :
    (∀ batch ∈ result, IsBatch batch)
      ∧ result.length = batches.length + Filling.greedyCount maxOutboundBatchBytes
        (envelopes.map fun envelope => envelope.encodedLen + 1) batchBytes := by
  have hisEmpty : batch.isEmpty = false := by
    simpa using opened.nonempty
  induction envelopes generalizing batches batch batchBytes with
  | nil =>
    simp only [gossipBatchesFrom, pure_eq_ok, hisEmpty, Bool.false_eq_true, if_false] at h
    subst h
    refine ⟨?_, by simp [Filling.greedyCount]⟩
    rw [List.forall_mem_append]
    exact ⟨closed, by simpa using opened⟩
  | cons envelope envelopes ih =>
    simp only [gossipBatchesFrom, bind_eq_ok, bailIf_eq_ok, not_lt, hisEmpty, true_and] at h
    obtain ⟨_, hlen, h⟩ := h
    rw [List.map_cons, Filling.greedyCount]
    split at h
    · rename_i hfull
      have hsingle : IsBatch ([envelope], envelope.encodedLen + 1) :=
        ⟨by simp, by simp [lineBytes], hlen⟩
      obtain ⟨hbatches, hcount⟩ := ih h
        (List.forall_mem_append.mpr ⟨closed, by simpa using opened⟩) hsingle (by simp)
      refine ⟨hbatches, ?_⟩
      rw [hcount, if_pos hfull, List.length_append, List.length_singleton, Nat.add_assoc]
    · rename_i hfits
      have hbytes := opened.bytes
      dsimp only at hbytes
      have hlonger : IsBatch (batch ++ [envelope], batchBytes + (envelope.encodedLen + 1)) :=
        ⟨by simp, by simp [lineBytes, hbytes], not_lt.mp hfits⟩
      obtain ⟨hbatches, hcount⟩ := ih h closed hlonger (by simp)
      refine ⟨hbatches, ?_⟩
      rw [hcount, if_neg hfits]

/-- What the batches of some envelopes are. -/
lemma byteBoundedGossipBatches_spec {envelopes : List GossipEnvelope}
    {batches : List (List GossipEnvelope × ℕ)}
    (h : byteBoundedGossipBatches envelopes = .ok batches) :
    (∀ batch ∈ batches, IsBatch batch)
      ∧ (batches = [] ∧ envelopes = [] ∨ ∃ envelope rest, envelopes = envelope :: rest
        ∧ batches.length = Filling.greedyCount maxOutboundBatchBytes
          (rest.map fun envelope => envelope.encodedLen + 1) (envelope.encodedLen + 1)) := by
  cases envelopes with
  | nil =>
    simp only [byteBoundedGossipBatches, gossipBatchesFrom, List.isEmpty_nil, if_true,
      pure_eq_ok] at h
    subst h
    exact ⟨by simp, .inl ⟨rfl, rfl⟩⟩
  | cons envelope rest =>
    simp only [byteBoundedGossipBatches, gossipBatchesFrom, bind_eq_ok, bailIf_eq_ok, not_lt,
      List.isEmpty_nil, Bool.true_eq_false, false_and, if_false, List.nil_append,
      Nat.zero_add] at h
    obtain ⟨_, hlen, h⟩ := h
    obtain ⟨hbatches, hcount⟩ := gossipBatchesFrom_opened h (by simp)
      ⟨by simp, by simp [lineBytes], hlen⟩
    exact ⟨hbatches, .inr ⟨envelope, rest, rfl, by simpa using hcount⟩⟩

lemma batchBytes_eq {batches : List (List GossipEnvelope × ℕ)}
    (h : ∀ batch ∈ batches, IsBatch batch) :
    batchBytes batches = lineBytes (batches.flatMap Prod.fst) := by
  induction batches with
  | nil => rfl
  | cons batch batches ih =>
    rw [List.forall_mem_cons] at h
    have hrest := ih h.2
    simp only [batchBytes, lineBytes, List.map_cons, List.sum_cons, List.flatMap_cons,
      List.map_append, List.sum_append] at hrest ⊢
    rw [hrest, h.1.bytes, lineBytes]

/-- Envelopes can be cut into at most `count` groups of the size of a batch. -/
def CutsInto (envelopes : List GossipEnvelope) (count : ℕ) : Prop :=
  ∃ groups : List (List GossipEnvelope), groups.flatten = envelopes ∧ groups.length ≤ count
    ∧ ∀ group ∈ groups, lineBytes group ≤ maxOutboundBatchBytes

/-- There are as few batches as a cut into groups of their size can have. -/
lemma batches_length_le_iff {envelopes : List GossipEnvelope}
    {batches : List (List GossipEnvelope × ℕ)}
    (h : byteBoundedGossipBatches envelopes = .ok batches) (count : ℕ) :
    batches.length ≤ count ↔ CutsInto envelopes count := by
  obtain ⟨hbatches, hcases⟩ := byteBoundedGossipBatches_spec h
  constructor
  · intro hle
    refine ⟨batches.map Prod.fst, ?_, by rwa [List.length_map], ?_⟩
    · rw [← List.flatMap_def, (gossipBatchesFrom_eq_ok h).2]
      rfl
    · rw [List.forall_mem_map]
      exact fun batch hmem => (hbatches batch hmem).bytes ▸ (hbatches batch hmem).limit
  · rintro ⟨groups, hflatten, hlength, hlimit⟩
    rcases hcases with ⟨rfl, -⟩ | ⟨envelope, rest, rfl, hcount⟩
    · exact Nat.zero_le _
    -- the cut of the envelopes is a cut of their sizes, whose first group opens with the first size
    · let size (envelope : GossipEnvelope) : ℕ := envelope.encodedLen + 1
      have hcut : (groups.map (List.map size)).flatten = size envelope :: rest.map size := by
        rw [← List.map_flatten, hflatten, List.map_cons]
      obtain ⟨group, left, hmem, hsublist, hfewer, hrest⟩ := Filling.exists_first_group hcut
      have hfit : ∀ sizes ∈ groups.map (List.map size), sizes.sum ≤ maxOutboundBatchBytes := by
        rw [List.forall_mem_map]
        exact hlimit
      have hgroup := hfit _ hmem
      rw [List.sum_cons] at hgroup
      have hleast := Filling.greedyCount_le hrest hgroup
        fun sizes hsizes => hfit sizes (hsublist.subset hsizes)
      rw [List.length_map] at hfewer
      rw [hcount]
      exact hleast.trans (by omega)

/-! ## Broadcasts -/

/-- The batches of a queue carry all of it exactly if every envelope fits in a line. -/
theorem broadcast_complete_iff (queue : List GossipEnvelope) :
    (∃ batches, broadcastBatches queue = .ok batches
        ∧ batches.flatMap Prod.fst = prepareGossip queue) ↔
      ∀ envelope ∈ prepareGossip queue, envelope.encodedLen ≤ maxGossipLineBytes := by
  constructor
  · rintro ⟨batches, hbatches, -⟩
    exact (gossipBatchesFrom_eq_ok hbatches).1
  · intro fits
    obtain ⟨batches, hbatches⟩ := gossipBatchesFrom_succeeds fits [] [] 0
    exact ⟨batches, hbatches, by simpa using (gossipBatchesFrom_eq_ok hbatches).2⟩

/-- There are permits and places for a queue: permits of all sessions for every session that is
served, and in each of these permits, an open channel and places for the groups of a cut. -/
structure HasCapacity (envelopes : List GossipEnvelope) (sessions : List GossipSession)
    (globalBytes : ℕ) : Prop where
  global : (served sessions).length * lineBytes envelopes ≤ globalBytes
  own : ∀ session ∈ served sessions, lineBytes envelopes ≤ session.queueBytes
  opened : ∀ session ∈ served sessions, envelopes ≠ [] → session.isClosed = false
  slots : ∀ session ∈ served sessions, CutsInto envelopes session.freeSlots

/-- A broadcast sends the whole queue to every session but those of banned peers exactly if every
envelope fits in a line and there are permits and places for the queue. -/
theorem broadcast_delivers_iff (queue : List GossipEnvelope) (sessions : List GossipSession)
    (globalBytes : ℕ) :
    (∃ batches deliveries, broadcastBatches queue = .ok batches
        ∧ batches.flatMap Prod.fst = prepareGossip queue
        ∧ broadcast queue sessions globalBytes = .ok deliveries
        ∧ ∀ delivery ∈ deliveries, delivery.sent = batches.map Prod.fst) ↔
      (∀ envelope ∈ prepareGossip queue, envelope.encodedLen ≤ maxGossipLineBytes)
        ∧ HasCapacity (prepareGossip queue) sessions globalBytes := by
  have hcapacity {batches : List (List GossipEnvelope × ℕ)}
      (hbatches : broadcastBatches queue = .ok batches)
      (hall : batches.flatMap Prod.fst = prepareGossip queue) :
      ((served sessions).length * batchBytes batches ≤ globalBytes
        ∧ ∀ session ∈ served sessions,
          session.Takes (batchBytes batches) batches.length (batchBytes batches)) ↔
        HasCapacity (prepareGossip queue) sessions globalBytes := by
    obtain ⟨hisBatch, hcases⟩ := byteBoundedGossipBatches_spec hbatches
    have hslots := batches_length_le_iff hbatches
    have hnonempty : 0 < batches.length ↔ prepareGossip queue ≠ [] := by
      rcases hcases with ⟨rfl, hnil⟩ | ⟨envelope, rest, hcons, -⟩
      · simp [hnil]
      · refine iff_of_true (List.length_pos_iff.mpr ?_) (by simp [hcons])
        rintro rfl
        rw [hcons] at hall
        cases hall
    rw [batchBytes_eq hisBatch, hall]
    constructor
    · rintro ⟨hglobal, htakes⟩
      exact ⟨hglobal, fun session hmem => (htakes session hmem).own,
        fun session hmem hne => (htakes session hmem).opened (hnonempty.mpr hne),
        fun session hmem => (hslots _).mp (htakes session hmem).slots⟩
    · intro h
      exact ⟨h.global, fun session hmem => ⟨le_rfl, h.own session hmem,
        fun hpos => h.opened session hmem (hnonempty.mp hpos),
        (hslots _).mpr (h.slots session hmem)⟩⟩
  constructor
  · rintro ⟨batches, deliveries, hbatches, hall, hdeliveries, hsent⟩
    refine ⟨(broadcast_complete_iff queue).mp ⟨batches, hbatches, hall⟩, ?_⟩
    simp only [broadcast, bind_eq_ok, pure_eq_ok] at hdeliveries
    obtain ⟨handed, hhanded, rfl⟩ := hdeliveries
    obtain rfl := Except.ok.inj (hbatches.symm.trans hhanded)
    exact (hcapacity hbatches hall).mp ((deliverBatches_all_iff _ _ _).mp hsent)
  · rintro ⟨fits, capacity⟩
    obtain ⟨batches, hbatches, hall⟩ := (broadcast_complete_iff queue).mpr fits
    refine ⟨batches, deliverBatches batches sessions globalBytes, hbatches, hall, ?_, ?_⟩
    · exact bind_eq_ok.mpr ⟨batches, hbatches, rfl⟩
    · exact (deliverBatches_all_iff _ _ _).mpr ((hcapacity hbatches hall).mpr capacity)

end Batches

end Iuna
