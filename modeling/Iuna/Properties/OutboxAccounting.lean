import Iuna.App.Lifecycle
import Iuna.Properties.BundleStore
import Iuna.Properties.Emission

/-!
# The accounting of the outbox

The outbox keeps the bytes of its entries in a counter.  Enqueueing drops the oldest entries until
the new one fits, and draining empties both; the return to a setup placeholder empties the entries
only.  Along a run in which the outbox has been drained before each such return, the counter is
the sum of the entries' bytes, the entries are the last of those queued, and what is dropped is no
more than has to be (`outbox_accounting`).
-/

namespace Iuna

open Mutate

section Accounting

variable [SerdeJson]

namespace Outbox

omit [SerdeJson] in
/-- The bytes of queued entries. -/
def entriesBytes (entries : List (GossipEnvelope × ℕ)) : ℕ := (entries.map Prod.snd).sum

omit [SerdeJson] in
/-- The entries are within both limits. -/
def Fits (entries : List (GossipEnvelope × ℕ)) : Prop :=
  entries.length ≤ maxGossipOutboxEntries ∧ entriesBytes entries ≤ maxGossipOutboxBytes

/-- The counter is exact, the limits hold, and the entries are the last of the envelopes that were
queued, in their order and with their sizes. -/
structure Accounted (queued : List GossipEnvelope) (outbox : Outbox) : Prop where
  counter : outbox.bytes = entriesBytes outbox.entries
  fits : Fits outbox.entries
  measured : ∀ entry ∈ outbox.entries, entry.2 = entry.1.encodedLen
  ordered : outbox.entries.map Prod.fst <:+ queued

/-- An envelope that alone exceeds the byte limit is not queued; another one is queued behind the
longest tail of the entries with which it is within the limits. -/
def DropsOnlyForRoom (outbox : Outbox) (envelope : GossipEnvelope) : Prop :=
  if maxGossipOutboxBytes < envelope.encodedLen then outbox.enqueueGossip envelope = outbox
  else ∃ kept, kept <:+ outbox.entries
    ∧ (outbox.enqueueGossip envelope).entries = kept ++ [(envelope, envelope.encodedLen)]
    ∧ ∀ longer, longer <:+ outbox.entries → Fits (longer ++ [(envelope, envelope.encodedLen)]) →
      longer.length ≤ kept.length

/-! ## Making room -/

omit [SerdeJson] in
@[simp] lemma entriesBytes_cons (entry : GossipEnvelope × ℕ) (entries : List (GossipEnvelope × ℕ)) :
    entriesBytes (entry :: entries) = entry.2 + entriesBytes entries := by
  simp [entriesBytes]

omit [SerdeJson] in
@[simp] lemma entriesBytes_concat (entry : GossipEnvelope × ℕ)
    (entries : List (GossipEnvelope × ℕ)) :
    entriesBytes (entries ++ [entry]) = entriesBytes entries + entry.2 := by
  simp [entriesBytes]

omit [SerdeJson] in
lemma fits_concat {entry : GossipEnvelope × ℕ} {entries : List (GossipEnvelope × ℕ)} :
    Fits (entries ++ [entry]) ↔ entries.length < maxGossipOutboxEntries
      ∧ entriesBytes entries + entry.2 ≤ maxGossipOutboxBytes := by
  rw [Fits, entriesBytes_concat, List.length_append, List.length_singleton, Nat.succ_le_iff]

omit [SerdeJson] in
/-- Below the limit the saturating sum is the sum. -/
lemma saturatingAdd_of_le {a b : ℕ} (ha : a ≤ maxGossipOutboxBytes)
    (hb : b ≤ maxGossipOutboxBytes) : saturatingAdd a b = a + b := by
  have hlimit : maxGossipOutboxBytes + maxGossipOutboxBytes ≤ u64Max := by decide
  unfold saturatingAdd
  omega

omit [SerdeJson] in
/-- What is left after room has been made: the longest tail with which the new entry fits. -/
lemma makeOutboxRoom_spec (added : GossipEnvelope × ℕ) (hadded : added.2 ≤ maxGossipOutboxBytes)
    {entries : List (GossipEnvelope × ℕ)} {bytes : ℕ} (counter : bytes = entriesBytes entries)
    (hbytes : bytes ≤ maxGossipOutboxBytes) :
    (makeOutboxRoom added.2 entries bytes).entries <:+ entries
    ∧ (makeOutboxRoom added.2 entries bytes).bytes
      = entriesBytes (makeOutboxRoom added.2 entries bytes).entries
    ∧ Fits ((makeOutboxRoom added.2 entries bytes).entries ++ [added])
    ∧ ∀ longer, longer <:+ entries → Fits (longer ++ [added]) →
      longer.length ≤ (makeOutboxRoom added.2 entries bytes).entries.length := by
  induction entries generalizing bytes with
  | nil =>
    rw [makeOutboxRoom]
    refine ⟨List.suffix_rfl, counter, ?_, ?_⟩
    · rw [fits_concat, ← counter, counter]
      refine ⟨by decide, ?_⟩
      simpa [entriesBytes] using hadded
    · exact fun longer hlonger _ => hlonger.length_le
  | cons entry entries ih =>
    rw [entriesBytes_cons] at counter
    rw [makeOutboxRoom, saturatingAdd_of_le hbytes hadded]
    split
    · rename_i hdrop
      have hrest : bytes - entry.2 = entriesBytes entries := by omega
      obtain ⟨hsuffix, hcounter, hfits, hlongest⟩ := ih hrest (by omega)
      refine ⟨hsuffix.trans (List.suffix_cons _ _), hcounter, hfits, ?_⟩
      intro longer hlonger hlongerFits
      rcases List.suffix_cons_iff.mp hlonger with rfl | hlonger
      · rw [fits_concat, entriesBytes_cons, ← counter] at hlongerFits
        omega
      · exact hlongest longer hlonger hlongerFits
    · rename_i hkeep
      rw [not_or, not_le, not_lt] at hkeep
      refine ⟨List.suffix_rfl, ?_, ?_, fun longer hlonger _ => hlonger.length_le⟩
      · rw [entriesBytes_cons, counter]
      · rw [fits_concat, entriesBytes_cons, ← counter]
        exact hkeep

/-! ## The operations -/

lemma accounted_empty : Accounted [] { entries := [], bytes := 0 } where
  counter := rfl
  fits := ⟨Nat.zero_le _, Nat.zero_le _⟩
  measured := fun _ hmem => absurd hmem List.not_mem_nil
  ordered := List.suffix_rfl

variable {queued : List GossipEnvelope} {outbox : Outbox}

/-- In an outbox with an exact counter, no more is dropped than has to be. -/
lemma Accounted.dropsOnlyForRoom (accounted : outbox.Accounted queued)
    (envelope : GossipEnvelope) : outbox.DropsOnlyForRoom envelope := by
  unfold DropsOnlyForRoom enqueueGossip
  split
  · rfl
  · rename_i hsmall
    obtain ⟨hsuffix, -, -, hlongest⟩ := makeOutboxRoom_spec (envelope, envelope.encodedLen)
      (not_lt.mp hsmall) accounted.counter (accounted.counter ▸ accounted.fits.2)
    exact ⟨_, hsuffix, rfl, hlongest⟩

/-- The envelopes that an enqueue puts at the end of the queue. -/
def queues (envelope : GossipEnvelope) : List GossipEnvelope :=
  if maxGossipOutboxBytes < envelope.encodedLen then [] else [envelope]

lemma Accounted.enqueueGossip (accounted : outbox.Accounted queued) (envelope : GossipEnvelope) :
    (outbox.enqueueGossip envelope).Accounted (queued ++ queues envelope) := by
  unfold Outbox.enqueueGossip queues
  split
  · rw [List.append_nil]
    exact accounted
  · rename_i hsmall
    rw [not_lt] at hsmall
    have hbytes : outbox.bytes ≤ maxGossipOutboxBytes := accounted.counter ▸ accounted.fits.2
    obtain ⟨hsuffix, hcounter, hfits, -⟩ := makeOutboxRoom_spec (envelope, envelope.encodedLen)
      hsmall accounted.counter hbytes
    have hroom := (fits_concat.mp hfits).2
    refine ⟨?_, hfits, ?_, ?_⟩
    · dsimp only at hcounter hroom ⊢
      rw [entriesBytes_concat, hcounter, saturatingAdd_of_le (by omega) hsmall]
    · intro entry hentry
      rcases List.mem_append.mp hentry with hentry | hentry
      · exact accounted.measured entry (hsuffix.subset hentry)
      · rw [List.mem_singleton.mp hentry]
    · rw [List.map_append]
      obtain ⟨dropped, hdropped⟩ := (hsuffix.map Prod.fst).trans accounted.ordered
      exact ⟨dropped, by rw [← List.append_assoc, hdropped, List.map_singleton]⟩

lemma Accounted.enqueueAll (accounted : outbox.Accounted queued)
    (envelopes : List GossipEnvelope) :
    (envelopes.foldl Outbox.enqueueGossip outbox).Accounted
      (queued ++ envelopes.flatMap queues) := by
  induction envelopes generalizing queued outbox with
  | nil => simpa using accounted
  | cons envelope envelopes ih =>
    rw [List.foldl_cons, List.flatMap_cons, ← List.append_assoc]
    exact ih (accounted.enqueueGossip envelope)

end Outbox

/-! ## Runs -/

/-- What happens to the outbox of a node. -/
inductive OutboxEvent
  | enqueued (envelopes : List GossipEnvelope)
  | drained
  | reset

/-- The envelopes queued since the outbox was last emptied. -/
def OutboxEvent.queued (queued : List GossipEnvelope) : OutboxEvent → List GossipEnvelope
  | .enqueued envelopes => queued ++ envelopes.flatMap Outbox.queues
  | .drained => []
  | .reset => []

variable [Crypto]

/-- The steps of a node as its outbox sees them: whatever else it does, a node only enqueues. -/
inductive OutboxStep : Node → OutboxEvent → Node → Prop
  | enqueued {node node' : Node} {envelopes : List GossipEnvelope}
      (same : node'.outbox = envelopes.foldl Outbox.enqueueGossip node.outbox) :
      OutboxStep node (.enqueued envelopes) node'
  | drained {node : Node} : OutboxStep node .drained node.drainOutbox.2
  | reset {node node' : Node} (done : node.resetChainToSetupPlaceholder = .ok node') :
      OutboxStep node .reset node'

section Enqueues

/-- The outbox of the node has been filled from another one. -/
def EnqueuedFrom (start : Outbox) (node : Node) : Prop :=
  ∃ envelopes : List GossipEnvelope, node.outbox = envelopes.foldl Outbox.enqueueGossip start

variable {start : Outbox} {node : Node}

omit [Crypto] in
lemma EnqueuedFrom.enqueueGossip (enqueued : EnqueuedFrom start node) (envelope : GossipEnvelope) :
    EnqueuedFrom start (node.enqueueGossip envelope) := by
  obtain ⟨envelopes, henvelopes⟩ := enqueued
  refine ⟨envelopes ++ [envelope], ?_⟩
  rw [List.foldl_append, ← henvelopes]
  rfl

omit [Crypto] in
lemma enqueuedFrom_poolStable (start : Outbox) : Node.PoolStable (EnqueuedFrom start) where
  pools := fun _ _ enqueued => enqueued
  gossip := fun _ envelope enqueued => enqueued.enqueueGossip envelope

omit [Crypto] in
lemma EnqueuedFrom.recordBurnBundle (enqueued : EnqueuedFrom start node) (bundle : BurnBundle) :
    EnqueuedFrom start (node.recordBurnBundle bundle) := by
  unfold Node.recordBurnBundle
  split
  · exact enqueued
  · split
    · split
      · exact enqueued
      · exact enqueued
    · have stored : EnqueuedFrom start
          { node with burnBundles := node.burnBundles.insert bundle.key bundle } := enqueued
      exact stored.enqueueGossip _

omit [Crypto] in
lemma EnqueuedFrom.enqueueImportedBlocks (enqueued : EnqueuedFrom start node)
    (previousHeight : ℕ) : EnqueuedFrom start (node.enqueueImportedBlocks previousHeight) := by
  unfold Node.enqueueImportedBlocks
  split
  · exact enqueued
  · dsimp only
    split
    · exact enqueued
    · have pruned : EnqueuedFrom start node.pruneBurnBundles := enqueued
      exact pruned.enqueueGossip _

lemma receiveBurnBundle_enqueues (bundle : BurnBundle) :
    Preserves (EnqueuedFrom start) (Node.receiveBurnBundle bundle) := by
  have stable := enqueuedFrom_poolStable start
  refine preserves_get_bind fun current hcurrent => ?_
  refine preserves_ite (preserves_pure _) ?_ current hcurrent
  refine preserves_bind (preserves_lift _) fun _ => ?_
  refine preserves_bind (preserves_forM fun burn _ => submitTolerating_stable stable _ _ _)
    fun _ => ?_
  refine preserves_bind (preserves_forM fun envelope _ =>
    receiveGossipedTransactionV2_stable stable envelope) fun _ => ?_
  refine preserves_get_bind fun left hleft => ?_
  exact holds_lift_bind hleft fun _ _ => hleft.recordBurnBundle bundle

lemma publishBurnBundle_enqueues (anchored : Ledger) (bundle : BurnBundle) :
    Preserves (EnqueuedFrom start) (Node.publishBurnBundle anchored bundle) := by
  intro current hcurrent
  rcases (publishBurnBundle_after anchored bundle current).2 with
    hsame | ⟨envelope, hstored⟩ | ⟨-, hnew⟩
  · rwa [hsame]
  · rw [hstored]
    exact hcurrent.enqueueGossip envelope
  · rw [hnew]
    have stored : EnqueuedFrom start
        { current with burnBundles := current.burnBundles.insert bundle.key bundle } := hcurrent
    exact stored.enqueueGossip _

lemma receiveBlock_enqueues (block : Block) (verifyVdf : Bool) (nowMs : ℕ) :
    Preserves (EnqueuedFrom start) (Node.receiveBlock block verifyVdf nowMs) := by
  refine preserves_get_bind fun current hcurrent => ?_
  refine preserves_bind ?_ (fun _ => ?_) current hcurrent
  · intro left hleft
    apply preserves_zoom (I := fun _ => True) (fun _ _ => trivial) (fun _ _ => trivial) ?_ left hleft
    exact fun _ _ enqueued _ => enqueued
  · refine preserves_modify fun left hleft => ?_
    split
    · have pruned : EnqueuedFrom start left.pruneBurnBundles := hleft
      exact pruned.enqueueGossip _
    · exact hleft

/-- Every step of a node only enqueues. -/
theorem nodeStep_enqueues {event : NodeEvent} {node node' : Node}
    (step : NodeStep node event node') :
    ∃ envelopes, OutboxStep node (.enqueued envelopes) node' := by
  have hstart : EnqueuedFrom node.outbox node := ⟨[], rfl⟩
  suffices h : EnqueuedFrom node.outbox node' by
    obtain ⟨envelopes, henvelopes⟩ := h
    exact ⟨envelopes, .enqueued henvelopes⟩
  cases step with
  | received => exact receiveBurnBundle_enqueues _ node hstart
  | published =>
    refine preserves_get_bind (fun current hcurrent => ?_) node hstart
    exact holds_lift_bind hcurrent fun bundles _ =>
      preserves_forM (fun bundle _ => publishBurnBundle_enqueues _ bundle) current hcurrent
  | transaction => exact process_stable (enqueuedFrom_poolStable _) _ node hstart
  | block => exact receiveBlock_enqueues _ _ _ node hstart
  | imported done =>
    rename_i ledger replaced
    simp only [Node.importVerifiedLedger, Outcome.bind_eq_ok] at done
    obtain ⟨_, -, _, -, done⟩ := done
    split at done
    · obtain ⟨-, rfl⟩ := Prod.mk.inj (Except.ok.inj done)
      exact hstart
    · obtain ⟨-, rfl⟩ := Prod.mk.inj (Except.ok.inj done)
      have imported : EnqueuedFrom node.outbox
          ({ node with ledger := ledger } : Node).pruneBurnBundles := hstart
      exact imported.enqueueImportedBlocks _
  | snapshot done =>
    simp only [Node.importChainSnapshot, Outcome.bind_eq_ok] at done
    obtain ⟨_, -, ⟨imported, ledger⟩, -, done⟩ := done
    obtain rfl := Except.ok.inj done
    split
    · have imported : EnqueuedFrom node.outbox
          ({ node with ledger := ledger } : Node).pruneBurnBundles := hstart
      exact imported.enqueueImportedBlocks _
    · exact hstart

end Enqueues

/-- A step in which the outbox is empty if the chain is reset. -/
def DrainedStep (node : Node) (event : OutboxEvent) (node' : Node) : Prop :=
  OutboxStep node event node' ∧ (event = .reset → node.outbox.entries = [])

lemma outboxStep_accounted {queued : List GossipEnvelope} {event : OutboxEvent} {node node' : Node}
    (accounted : node.outbox.Accounted queued) (step : DrainedStep node event node') :
    node'.outbox.Accounted (event.queued queued) := by
  obtain ⟨step, drained⟩ := step
  cases step with
  | enqueued same =>
    rw [same]
    exact accounted.enqueueAll _
  | drained => exact Outbox.accounted_empty
  | reset done =>
    simp only [Node.resetChainToSetupPlaceholder, Outcome.bind_eq_ok] at done
    obtain ⟨ledger, -, done⟩ := done
    obtain rfl := Except.ok.inj done
    have hbytes : node.outbox.bytes = 0 := by
      rw [accounted.counter, drained rfl]
      rfl
    simpa only [OutboxEvent.queued, hbytes] using Outbox.accounted_empty

/-- **The outbox is accounted.** In every run from a fresh outbox in which the outbox is empty at
each reset of the chain, the counter is exact, the limits hold, the entries are the last of those
queued, and an envelope drops no more than it has to. -/
theorem outbox_accounting {start node : Node} {events : List OutboxEvent}
    (fresh : start.outbox = { entries := [], bytes := 0 })
    (run : Runs.Run DrainedStep start events node) :
    node.outbox.Accounted (events.foldl OutboxEvent.queued [])
      ∧ ∀ envelope, node.outbox.DropsOnlyForRoom envelope := by
  have accounted : node.outbox.Accounted (events.foldl OutboxEvent.queued []) := by
    refine run.track (fun done current => current.outbox.Accounted
      (done.foldl OutboxEvent.queued [])) ?_ ?_
    · intro done before event left hbefore step
      rw [List.foldl_append]
      exact outboxStep_accounted hbefore step
    · rw [fresh]
      exact Outbox.accounted_empty
  exact ⟨accounted, accounted.dropsOnlyForRoom⟩

end Accounting

namespace Toy

attribute [local instance] crypto serdeJson

def placeholder (launchProfile : LaunchProfile) : Result Ledger :=
  Ledger.newWithGenesisTransactions ∅ [] 1 launchProfile

set_option maxRecDepth 10000 in
lemma placeholder_isOk : (placeholder genesis.launchProfile).isOk = true := by decide +kernel

/-- A reset whose placeholder ledger is made: the ledger is replaced and the entries are dropped. -/
lemma resetChain_eq {node : Node} (made : (placeholder node.ledger.launchProfile).isOk = true) :
    node.resetChainToSetupPlaceholder = .ok { node with
      ledger := Outcome.value _ made
      burnBundles := ∅
      equivocatedBurnBundleSlots := ∅
      outbox := { node.outbox with entries := [] } } := by
  have hplaceholder : placeholder node.ledger.launchProfile = .ok (Outcome.value _ made) :=
    Outcome.eq_ok_value _ made
  rw [Node.resetChainToSetupPlaceholder]
  exact Outcome.bind_eq_ok.mpr ⟨_, hplaceholder, rfl⟩

/-- The node after it has received a mine action. -/
def informedNode : Node := after (Received.submitted (minedCoin 0)).process (node genesis)

set_option maxRecDepth 10000 in
lemma drainedNode_placeholder :
    (placeholder informedNode.drainOutbox.2.ledger.launchProfile).isOk = true := by
  decide +kernel

/-- A node that receives a mine action, sends what it has queued and leaves its network. -/
theorem drainedNode_accounted : ∃ envelopes left,
    OutboxStep (node genesis) (.enqueued envelopes) informedNode
      ∧ informedNode.drainOutbox.2.resetChainToSetupPlaceholder = .ok left
      ∧ left.outbox.Accounted [] ∧ ∀ envelope, left.outbox.DropsOnlyForRoom envelope := by
  obtain ⟨envelopes, received⟩ := nodeStep_enqueues
    (NodeStep.transaction : NodeStep (node genesis) (.transaction (.submitted (minedCoin 0)))
      informedNode)
  have hreset := resetChain_eq drainedNode_placeholder
  have hdrained : OutboxStep informedNode .drained informedNode.drainOutbox.2 := .drained
  exact ⟨envelopes, _, received, hreset,
    outbox_accounting (show (node genesis).outbox = _ from rfl)
      (.cons ⟨received, nofun⟩ (.cons ⟨hdrained, nofun⟩
        (.cons ⟨.reset hreset, fun _ => rfl⟩ (.nil _))))⟩

/-- A request is queued when the chain is reset: the counter keeps its bytes. -/
theorem outbox_not_accounted : ∃ events reset, Runs.Run OutboxStep (node genesis) events reset
    ∧ ¬ reset.outbox.Accounted (events.foldl OutboxEvent.queued []) := by
  let asking := (node genesis).enqueueGossip .chainBootstrapRequest
  have hreset := resetChain_eq (show (placeholder asking.ledger.launchProfile).isOk = true from
    placeholder_isOk)
  refine ⟨[.enqueued [.chainBootstrapRequest], .reset], _,
    .cons (show OutboxStep (node genesis) (.enqueued [.chainBootstrapRequest]) asking from
      .enqueued rfl) (.cons (.reset hreset) (.nil _)), ?_⟩
  intro accounted
  exact absurd accounted.counter (by decide)

end Toy

end Iuna
