import Iuna.Properties.ForkChoice
import Iuna.Properties.PoolUpdates

/-!
# The burn-bundle store and the tip

The bundles that a node collects are keyed by height, slot and member; their parent is checked
when they are accepted, and they are pruned by height.  As long as every change of the tip raises
the height, what is stored for the next height is therefore for the current tip (`Collected`, kept
by `NodeStep`).  A change of the tip at one height keeps bundles and marks of the old parent.
-/

namespace Iuna

open Mutate

/-! ## Stored bundles and marks -/

section Store

variable [Crypto]

/-- The signature of a bundle is the member's. -/
def BurnBundle.Signed (bundle : BurnBundle) : Prop :=
  verifyAddressSignature bundle.member bundle.canonicalPayload bundle.signature "burn bundle"
    = .ok ()

/-- Two different bundles that a member signed for one height, slot and parent. -/
structure DoubleSigned (key : BurnBundleKey) (first second : BurnBundle) : Prop where
  firstKey : first.key = key
  secondKey : second.key = key
  parent : first.prevHash = second.prevHash
  differ : first.canonical ≠ second.canonical
  firstSigned : first.Signed
  secondSigned : second.Signed

/-- What is collected comes from the bundles seen, and what is collected for the next height is
for the current tip. -/
structure Collected (seen : List BurnBundle) (node : Node) : Prop where
  stored : ∀ (key : BurnBundleKey) (bundle : BurnBundle), node.burnBundles[key]? = some bundle →
    bundle.key = key ∧ bundle ∈ seen ∧ bundle.Signed ∧ key.height ≤ node.ledger.height + 1
      ∧ (key.height = node.ledger.height + 1 → bundle.prevHash = node.ledger.tip.hash)
  marked : ∀ key ∈ node.equivocatedBurnBundleSlots,
    key.height ≤ node.ledger.height + 1
      ∧ ∃ first ∈ seen, ∃ second ∈ seen, DoubleSigned key first second
        ∧ (key.height = node.ledger.height + 1 → first.prevHash = node.ledger.tip.hash)

/-- `Collected` on a fixed tip. -/
def CollectedOn (seen : List BurnBundle) (tip : Block) (node : Node) : Prop :=
  Collected seen node ∧ node.ledger.tip = tip

/-- Nothing is collected. -/
def Node.NoneCollected (node : Node) : Prop :=
  (∀ key : BurnBundleKey, node.burnBundles[key]? = none)
    ∧ ∀ key : BurnBundleKey, key ∉ node.equivocatedBurnBundleSlots

/-- A node has collected nothing that another one has not. -/
structure Node.SubStore (node other : Node) : Prop where
  stored : ∀ (key : BurnBundleKey) (bundle : BurnBundle), node.burnBundles[key]? = some bundle →
    other.burnBundles[key]? = some bundle
  marked : ∀ key ∈ node.equivocatedBurnBundleSlots, key ∈ other.equivocatedBurnBundleSlots

namespace Collected

variable {seen seen' : List BurnBundle} {node node' : Node}

lemma of_noneCollected (none : node.NoneCollected) : Collected seen node where
  stored := fun key bundle hstored => by
    rw [none.1 key] at hstored
    cases hstored
  marked := fun key hmarked => absurd hmarked (none.2 key)

lemma mono (collected : Collected seen node) (hseen : seen ⊆ seen') : Collected seen' node where
  stored := fun key bundle hstored => by
    obtain ⟨hkey, hmem, hrest⟩ := collected.stored key bundle hstored
    exact ⟨hkey, hseen hmem, hrest⟩
  marked := fun key hmarked => by
    obtain ⟨hheight, first, hfirst, second, hsecond, hdouble⟩ := collected.marked key hmarked
    exact ⟨hheight, first, hseen hfirst, second, hseen hsecond, hdouble⟩

/-- Nothing new is collected, and the tip stays or the height rises above what was collected. -/
lemma move (collected : Collected seen node) (sub : node'.SubStore node)
    (htip : node'.ledger.tip = node.ledger.tip ∨ node.ledger.height < node'.ledger.height) :
    Collected seen node' := by
  rcases htip with htip | hraised
  · have hheight : node'.ledger.height = node.ledger.height := congrArg Block.height htip
    refine ⟨fun key bundle hstored => ?_, fun key hmarked => ?_⟩
    · rw [hheight, htip]
      exact collected.stored key bundle (sub.stored key bundle hstored)
    · rw [hheight, htip]
      exact collected.marked key (sub.marked key hmarked)
  · refine ⟨fun key bundle hstored => ?_, fun key hmarked => ?_⟩
    · obtain ⟨hkey, hmem, hsigned, hle, -⟩ :=
        collected.stored key bundle (sub.stored key bundle hstored)
      exact ⟨hkey, hmem, hsigned, by omega, fun hnext => by omega⟩
    · obtain ⟨hle, first, hfirst, second, hsecond, hdouble, -⟩ :=
        collected.marked key (sub.marked key hmarked)
      exact ⟨by omega, first, hfirst, second, hsecond, hdouble, fun hnext => by omega⟩

/-- An accepted bundle is stored under its key. -/
lemma insert_stored {bundle : BurnBundle} (collected : Collected seen node) (hseen : bundle ∈ seen)
    (signed : bundle.Signed) (hheight : bundle.height = node.ledger.height + 1)
    (hparent : bundle.prevHash = node.ledger.tip.hash) {key : BurnBundleKey} {other : BurnBundle}
    (hstored : (node.burnBundles.insert bundle.key bundle)[key]? = some other) :
    other.key = key ∧ other ∈ seen ∧ other.Signed ∧ key.height ≤ node.ledger.height + 1
      ∧ (key.height = node.ledger.height + 1 → other.prevHash = node.ledger.tip.hash) := by
  rw [Std.ExtTreeMap.getElem?_insert] at hstored
  split at hstored
  · rename_i hsame
    rw [Std.LawfulEqCmp.compare_eq_iff_eq] at hsame
    obtain rfl := Option.some.inj hstored
    exact ⟨hsame, hseen, signed, hsame ▸ hheight.le, fun _ => hparent⟩
  · exact collected.stored key other hstored

variable [SerdeJson]

lemma poolStable (seen : List BurnBundle) (tip : Block) :
    Node.PoolStable (CollectedOn seen tip) where
  pools := fun _ _ h => ⟨⟨h.1.stored, h.1.marked⟩, h.2⟩
  gossip := fun _ _ h => ⟨⟨h.1.stored, h.1.marked⟩, h.2⟩

/-- An accepted bundle is recorded. -/
lemma recordBurnBundle {bundle : BurnBundle} (collected : Collected seen node)
    (hseen : bundle ∈ seen) (signed : bundle.Signed)
    (hheight : bundle.height = node.ledger.height + 1)
    (hparent : bundle.prevHash = node.ledger.tip.hash) :
    Collected seen (node.recordBurnBundle bundle) := by
  unfold Node.recordBurnBundle
  split
  · exact collected
  · split
    · rename_i existing hexisting
      obtain ⟨hkey, hmem, hsigned, -, hexistingParent⟩ := collected.stored _ _ hexisting
      split
      · rename_i hdiffer
        refine ⟨fun key other hstored => ?_, fun key hmarked => ?_⟩
        · rw [Std.ExtTreeMap.getElem?_erase] at hstored
          split at hstored
          · cases hstored
          · exact collected.stored key other hstored
        · rcases Std.ExtTreeMap.mem_insert.mp hmarked with hsame | hmarked
          · rw [Std.LawfulEqCmp.compare_eq_iff_eq] at hsame
            subst hsame
            have hexistingHash := hexistingParent hheight
            exact ⟨hheight.le, existing, hmem, bundle, hseen,
              ⟨hkey, rfl, hexistingHash.trans hparent.symm, hdiffer, hsigned, signed⟩,
              fun _ => hexistingHash⟩
          · exact collected.marked key hmarked
      · exact collected
    · refine ⟨fun key other hstored => ?_, fun key hmarked => collected.marked key hmarked⟩
      exact insert_stored collected hseen signed hheight hparent hstored

end Collected

/-! ## What validation says about a bundle -/

/-- What an accepted bundle has passed. -/
structure BurnBundle.ValidFor (bundle : BurnBundle) (tip : Block) : Prop where
  height : bundle.height = tip.height + 1
  parent : bundle.prevHash = tip.hash
  signed : bundle.Signed

lemma precheck_validFor {ledger : Ledger} {committee : List BurnCommitteeMember}
    {bundle : BurnBundle}
    (h : ledger.precheckBurnBundleForBlock (ledger.tip.height + 1) ledger.tip.hash committee bundle
      = .ok ()) : bundle.ValidFor ledger.tip := by
  simp only [Ledger.precheckBurnBundleForBlock, Outcome.bind_eq_ok, Outcome.bailIf_eq_ok,
    not_not] at h
  obtain ⟨_, hheight, h⟩ := h
  split at h
  · simp at h
  · rename_i hparent
    simp only [Outcome.bind_eq_ok, Outcome.bailIf_eq_ok] at h
    obtain ⟨_, _, member, -, _, -, _, -, _, hexpanded, -⟩ := h
    simp only [Ledger.checkExpandedBundle, Outcome.bind_eq_ok] at hexpanded
    obtain ⟨_, -, hsigned⟩ := hexpanded
    exact ⟨hheight, not_not.mp hparent, hsigned⟩

/-- The bundle that a committee of the next block accepts alone. -/
lemma committee_validFor {ledger : Ledger} {committee : List BurnCommitteeMember}
    {bundle : BurnBundle} {validated : List BurnBundle}
    (h : ledger.validateBurnBundlesForCommittee (ledger.tip.height + 1) ledger.tip.hash committee
      [bundle] = .ok validated) : bundle.ValidFor ledger.tip := by
  simp only [Ledger.validateBurnBundlesForCommittee, List.mergeSort_singleton, Outcome.bind_eq_ok,
    List.foldlM_cons, Ledger.validateBundleForCommittee] at h
  obtain ⟨_, -, _, -, domain, -, _, ⟨_, ⟨_, -, _, hprecheck, -⟩, -⟩, -⟩ := h
  exact precheck_validFor hprecheck

omit [Crypto] in
lemma firstAcceptingRank_ok {validate : ℕ → Result (List BurnBundle)} {firstError : Option Error}
    {ranks : List ℕ} {validated : List BurnBundle}
    (h : Ledger.firstAcceptingRank validate firstError ranks = .ok validated) :
    ∃ rank, validate rank = .ok validated := by
  induction ranks generalizing firstError with
  | nil => cases h
  | cons rank ranks ih =>
    unfold Ledger.firstAcceptingRank at h
    split at h
    · rename_i found hfound
      obtain rfl := Except.ok.inj h
      exact ⟨rank, hfound⟩
    · exact ih h

lemma validateNext_validFor {ledger : Ledger} {bundle : BurnBundle} {validated : List BurnBundle}
    (h : ledger.validateNextBlockBurnBundles [bundle] = .ok validated) :
    bundle.ValidFor ledger.tip := by
  obtain ⟨rank, hrank⟩ := firstAcceptingRank_ok h
  exact committee_validFor hrank

/-! ## The steps of a node -/

section Steps

variable [SerdeJson]

/-- What happens to a node; a publication carries the bundles that the wallet has built. -/
inductive NodeEvent
  | received (bundle : BurnBundle)
  | published (bundles : List BurnBundle)
  | transaction (received : Received)
  | block (block : Block)
  | imported (ledger : Ledger)
  | snapshot (snapshot : ChainSnapshot) (nowMs : ℕ)

/-- The bundles that an event brings. -/
def NodeEvent.bundles : NodeEvent → List BurnBundle
  | .received bundle => [bundle]
  | .published bundles => bundles
  | .transaction _ => []
  | .block _ => []
  | .imported _ => []
  | .snapshot _ _ => []

/-- The steps of a node, whether they succeed or fail. -/
inductive NodeStep : Node → NodeEvent → Node → Prop
  | received {node : Node} {bundle : BurnBundle} :
      NodeStep node (.received bundle) (after (Node.receiveBurnBundle bundle) node)
  | published {node : Node} {wallet : Wallet} {pools : Pools} {bundles : List BurnBundle}
      (built : (node.ledger.withPools pools).buildBurnBundles wallet = .ok bundles) :
      NodeStep node (.published bundles)
        (after (Node.publishBurnBundleForNextBlock wallet pools) node)
  | transaction {node : Node} {received : Received} :
      NodeStep node (.transaction received) (after received.process node)
  | block {node : Node} {block : Block} {verifyVdf : Bool} {nowMs : ℕ} :
      NodeStep node (.block block) (after (Node.receiveBlock block verifyVdf nowMs) node)
  | imported {node node' : Node} {ledger : Ledger} {replaced : Bool}
      (done : node.importVerifiedLedger ledger = .ok (replaced, node')) :
      NodeStep node (.imported ledger) node'
  | snapshot {node node' : Node} {snapshot : ChainSnapshot} {nowMs : ℕ}
      (done : node.importChainSnapshot snapshot nowMs = .ok node') :
      NodeStep node (.snapshot snapshot nowMs) node'

/-- A replacement of the node's chain raises the height, or nothing has been collected. -/
def Node.Raises (node : Node) (ledger : Ledger) : Prop :=
  node.ledger.height < ledger.height ∨ node.NoneCollected

/-- The event raises the height if it changes the tip, or finds nothing collected. -/
def NodeEvent.Raises (node : Node) : NodeEvent → Prop
  | .received _ => True
  | .published _ => True
  | .transaction _ => True
  | .block _ => True
  | .imported ledger => node.Replaces ledger → node.Raises ledger
  | .snapshot chain nowMs => ∀ candidate commonAncestorHeight,
      Ledger.fromSnapshotWithVdfPolicy chain true nowMs = .ok candidate →
      node.ledger.forkPointWithCandidate candidate = .ok commonAncestorHeight →
      node.ledger.chooseFork candidate commonAncestorHeight = .switchToCandidate →
      node.Raises candidate

/-- A step that raises the height if it changes the tip. -/
def RaisingStep (node : Node) (event : NodeEvent) (node' : Node) : Prop :=
  NodeStep node event node' ∧ event.Raises node

variable {seen : List BurnBundle} {node node' : Node}

omit [Crypto] in
lemma recordBurnBundle_tip (node : Node) (bundle : BurnBundle) :
    (node.recordBurnBundle bundle).ledger.tip = node.ledger.tip := by
  unfold Node.recordBurnBundle
  split
  · rfl
  · split
    · split
      · rfl
      · rfl
    · rfl

lemma receiveBurnBundle_collected {bundle : BurnBundle} (collected : Collected seen node) :
    Collected (seen ++ [bundle]) (after (Node.receiveBurnBundle bundle) node) := by
  have stable := Collected.poolStable (seen ++ [bundle]) node.ledger.tip
  have hstart : CollectedOn (seen ++ [bundle]) node.ledger.tip node :=
    ⟨collected.mono (List.subset_append_left _ _), rfl⟩
  suffices h : Preserves (CollectedOn (seen ++ [bundle]) node.ledger.tip)
      (Node.receiveBurnBundle bundle) from (h node hstart).1
  refine preserves_get_bind fun current hcurrent => ?_
  refine preserves_ite (preserves_pure _) ?_ current hcurrent
  refine preserves_bind (preserves_lift _) fun _ => ?_
  refine preserves_bind (preserves_forM fun burn _ => submitTolerating_stable stable _ _ _)
    fun _ => ?_
  refine preserves_bind (preserves_forM fun envelope _ =>
    receiveGossipedTransactionV2_stable stable envelope) fun _ => ?_
  refine preserves_get_bind fun left hleft => ?_
  refine holds_lift_bind hleft fun validated hvalidated => ?_
  have hvalid := validateNext_validFor hvalidated
  refine ⟨hleft.1.recordBurnBundle (by simp) hvalid.signed hvalid.height hvalid.parent, ?_⟩
  exact (recordBurnBundle_tip left bundle).trans hleft.2

/-- What a publication leaves: a new, valid bundle is stored, and otherwise nothing is. -/
lemma publishBurnBundle_after (anchored : Ledger) (bundle : BurnBundle) (current : Node) :
    (bundle.key ∉ current.equivocatedBurnBundleSlots → current.burnBundles[bundle.key]? = none →
      (∃ validated, anchored.validateNextBlockBurnBundles [bundle] = .ok validated) →
        after (Node.publishBurnBundle anchored bundle) current
          = ({ current with burnBundles := current.burnBundles.insert bundle.key bundle } :
            Node).enqueueGossip (.burnBundle bundle))
    ∧ (after (Node.publishBurnBundle anchored bundle) current = current
      ∨ (∃ envelope, after (Node.publishBurnBundle anchored bundle) current
          = current.enqueueGossip envelope)
      ∨ (∃ validated, anchored.validateNextBlockBurnBundles [bundle] = .ok validated)
        ∧ after (Node.publishBurnBundle anchored bundle) current
          = ({ current with burnBundles := current.burnBundles.insert bundle.key bundle } :
            Node).enqueueGossip (.burnBundle bundle)) := by
  have hmarkedCase (hmarked : bundle.key ∈ current.equivocatedBurnBundleSlots) :
      after (Node.publishBurnBundle anchored bundle) current = current := by
    simp only [Node.publishBurnBundle, after_get_bind, if_pos hmarked, after_pure]
  have hstoredCase (hmarked : bundle.key ∉ current.equivocatedBurnBundleSlots)
      {existing : BurnBundle} (hstored : current.burnBundles[bundle.key]? = some existing) :
      after (Node.publishBurnBundle anchored bundle) current
        = current.enqueueGossip (.burnBundle existing) := by
    simp only [Node.publishBurnBundle, after_get_bind, if_neg hmarked, hstored, after_modify]
  have hnewCase (hmarked : bundle.key ∉ current.equivocatedBurnBundleSlots)
      (hnone : current.burnBundles[bundle.key]? = none) {validated : List BurnBundle}
      (hvalidated : anchored.validateNextBlockBurnBundles [bundle] = .ok validated) :
      after (Node.publishBurnBundle anchored bundle) current
        = ({ current with burnBundles := current.burnBundles.insert bundle.key bundle } :
          Node).enqueueGossip (.burnBundle bundle) := by
    simp only [Node.publishBurnBundle, after_get_bind, if_neg hmarked, hnone, liftM_eq_lift,
      after_lift_bind hvalidated, after_modify]
  have hinvalidCase (hmarked : bundle.key ∉ current.equivocatedBurnBundleSlots)
      (hnone : current.burnBundles[bundle.key]? = none) {error : Error}
      (hinvalid : anchored.validateNextBlockBurnBundles [bundle] = .error error) :
      after (Node.publishBurnBundle anchored bundle) current = current := by
    simp only [Node.publishBurnBundle, after_get_bind, if_neg hmarked, hnone, liftM_eq_lift,
      after_lift_bind_error hinvalid]
  refine ⟨fun hmarked hnone ⟨_, hvalidated⟩ => hnewCase hmarked hnone hvalidated, ?_⟩
  by_cases hmarked : bundle.key ∈ current.equivocatedBurnBundleSlots
  · exact .inl (hmarkedCase hmarked)
  · cases hstored : current.burnBundles[bundle.key]? with
    | some existing => exact .inr (.inl ⟨_, hstoredCase hmarked hstored⟩)
    | none =>
      cases hvalidated : anchored.validateNextBlockBurnBundles [bundle] with
      | ok validated => exact .inr (.inr ⟨⟨validated, rfl⟩, hnewCase hmarked hstored hvalidated⟩)
      | error error => exact .inl (hinvalidCase hmarked hstored hvalidated)

lemma publishBurnBundle_collected {anchored : Ledger} {bundle : BurnBundle}
    (hseen : bundle ∈ seen) :
    Preserves (CollectedOn seen anchored.tip) (Node.publishBurnBundle anchored bundle) := by
  intro current hcurrent
  have stable := Collected.poolStable seen anchored.tip
  rcases (publishBurnBundle_after anchored bundle current).2 with hafter | ⟨envelope, hafter⟩ |
    ⟨⟨validated, hvalidated⟩, hafter⟩
  · rw [hafter]
    exact hcurrent
  · rw [hafter]
    exact stable.gossip current envelope hcurrent
  · rw [hafter]
    apply stable.gossip
    have hvalid := validateNext_validFor hvalidated
    rw [← hcurrent.2] at hvalid
    exact ⟨⟨fun key stored hstored => hcurrent.1.insert_stored hseen hvalid.signed hvalid.height
      hvalid.parent hstored, hcurrent.1.marked⟩, hcurrent.2⟩

lemma publish_after {wallet : Wallet} {pools : Pools} {bundles : List BurnBundle}
    (built : (node.ledger.withPools pools).buildBurnBundles wallet = .ok bundles) :
    after (Node.publishBurnBundleForNextBlock wallet pools) node
      = after (forM bundles (Node.publishBurnBundle (node.ledger.withPools pools))) node := by
  unfold Node.publishBurnBundleForNextBlock
  rw [after_get_bind]
  dsimp only
  rw [liftM_eq_lift, after_lift_bind built]

lemma publish_collected {wallet : Wallet} {pools : Pools} {bundles : List BurnBundle}
    (collected : Collected seen node)
    (built : (node.ledger.withPools pools).buildBurnBundles wallet = .ok bundles) :
    Collected (seen ++ bundles)
      (after (Node.publishBurnBundleForNextBlock wallet pools) node) := by
  have hstart : CollectedOn (seen ++ bundles) (node.ledger.withPools pools).tip node :=
    ⟨collected.mono (List.subset_append_left _ _), rfl⟩
  have hall : Preserves (CollectedOn (seen ++ bundles) (node.ledger.withPools pools).tip)
      (forM bundles (Node.publishBurnBundle (node.ledger.withPools pools))) :=
    preserves_forM fun bundle hmem => publishBurnBundle_collected (List.mem_append_right _ hmem)
  rw [publish_after built]
  exact (hall node hstart).1

/-! ## Blocks and chains -/

omit [Crypto] [SerdeJson] in
/-- The tip of a ledger is that of another one, or higher. -/
def TipKept (base ledger : Ledger) : Prop :=
  ledger.tip = base.tip ∨ base.height < ledger.height

omit [SerdeJson] in
/-- A block leaves the tip or raises the height, even when its application fails. -/
lemma applyBlock_tipKept (base : Ledger) (block : Block) (verifyVdf : Bool) (nowMs : ℕ) :
    Preserves (TipKept base) (Ledger.applyBlockWithVdfPolicy block verifyVdf nowMs) := by
  refine preserves_get_bind fun ledger hledger => ?_
  refine holds_lift_bind hledger fun isNew hprecheck => ?_
  cases isNew with
  | false => exact hledger
  | true =>
    have hheight := (Ledger.precheck_eq_ok_true.mp hprecheck).height
    have hraised : base.height < block.height := by
      rcases hledger with htip | hraised
      · rw [hheight, htip]
        exact Nat.lt_succ_self _
      · rw [hheight]
        exact hraised.trans (Nat.lt_succ_self _)
    refine preserves_ite ?_ (preserves_pure _) ledger hledger
    refine preserves_bind (preserves_lift _) fun _ => ?_
    refine preserves_bind (preserves_lift _) fun effects => ?_
    refine preserves_bind (preserves_lift _) fun context => ?_
    have hrecord : TipKept base (ledger.recordBlock block effects context) := by
      obtain ⟨_, _, _, _, hrecord⟩ := Ledger.recordBlock_eq ledger block effects context
      have htip : (ledger.recordBlock block effects context).tip = block := by
        rw [hrecord]
        exact Ledger.pushBlock_tip ledger block
      exact .inr (by rw [Ledger.height, Ledger.height, htip]; exact hraised)
    refine preserves_bind (preserves_set hrecord) fun _ => ?_
    refine preserves_get_bind fun recorded hrecorded => ?_
    have hzoom : Preserves (TipKept base) (zoom Ledger.toPools Ledger.withPools
        (recorded.refreshPools (block.transactions.map Transaction.signature))) :=
      preserves_zoom (I := fun _ => True) (fun _ _ => trivial) (fun _ _ => trivial)
        fun _ _ h _ => h
    refine preserves_bind hzoom (fun _ => ?_) recorded hrecorded
    exact preserves_modify fun _ h => h

omit [Crypto] [SerdeJson] in
lemma Node.SubStore.refl (node : Node) : node.SubStore node :=
  ⟨fun _ _ h => h, fun _ h => h⟩

omit [Crypto] [SerdeJson] in
/-- Pruning collects nothing. -/
lemma pruneBurnBundles_subStore (node : Node) : node.pruneBurnBundles.SubStore node where
  stored := fun key bundle hstored => by
    rw [Node.pruneBurnBundles, Std.ExtTreeMap.getElem?_filter'] at hstored
    exact (Option.filter_eq_some_iff.mp hstored).1
  marked := fun _ hmarked => Std.ExtTreeMap.mem_of_mem_filter hmarked

omit [Crypto] [SerdeJson] in
lemma Node.SubStore.trans {node other third : Node} (first : node.SubStore other)
    (second : other.SubStore third) : node.SubStore third where
  stored := fun key bundle h => second.stored key bundle (first.stored key bundle h)
  marked := fun key h => second.marked key (first.marked key h)

omit [Crypto] in
lemma enqueueGossip_subStore (node : Node) (envelope : GossipEnvelope) :
    (node.enqueueGossip envelope).SubStore node :=
  ⟨fun _ _ h => h, fun _ h => h⟩

omit [Crypto] in
/-- What a node has collected after a chain was imported. -/
lemma imported_subStore (node : Node) (ledger : Ledger) (previousHeight : ℕ) :
    (({ node with ledger := ledger } : Node).pruneBurnBundles.enqueueImportedBlocks
      previousHeight).SubStore node := by
  have hprune : ({ node with ledger := ledger } : Node).pruneBurnBundles.SubStore node :=
    (pruneBurnBundles_subStore _).trans ⟨fun _ _ h => h, fun _ h => h⟩
  simp only [Node.enqueueImportedBlocks]
  split
  · exact hprune
  · split
    · exact hprune
    · exact ((enqueueGossip_subStore _ _).trans (pruneBurnBundles_subStore _)).trans hprune

/-- The imported chain is higher, or nothing had been collected. -/
lemma imported_collected {ledger : Ledger} (collected : Collected seen node)
    (raises : node.Raises ledger) (previousHeight : ℕ) :
    Collected seen (({ node with ledger := ledger } : Node).pruneBurnBundles.enqueueImportedBlocks
      previousHeight) := by
  have hsub := imported_subStore node ledger previousHeight
  rcases raises with hraised | hnone
  · refine collected.move hsub (.inr ?_)
    rw [enqueueImportedBlocks_ledger]
    exact hraised
  · apply Collected.of_noneCollected
    refine ⟨fun key => ?_, fun key hmarked => hnone.2 key (hsub.marked key hmarked)⟩
    rw [Option.eq_none_iff_forall_ne_some]
    intro bundle hstored
    have hold := hsub.stored key bundle hstored
    rw [hnone.1 key] at hold
    cases hold

/-- What a block leaves of a node: nothing new is collected, and the tip stays or rises. -/
def KeptFrom (base node : Node) : Prop :=
  node.SubStore base ∧ TipKept base.ledger node.ledger

lemma receiveBlock_kept (base : Node) (block : Block) (verifyVdf : Bool) (nowMs : ℕ) :
    Preserves (KeptFrom base) (Node.receiveBlock block verifyVdf nowMs) := by
  refine preserves_get_bind fun current hcurrent => ?_
  have hzoom : Preserves (KeptFrom base)
      (zoom Node.ledger (fun node ledger => { node with ledger := ledger })
        (Ledger.applyBlockWithVdfPolicy block verifyVdf nowMs)) :=
    preserves_zoom (applyBlock_tipKept base.ledger block verifyVdf nowMs) (fun _ h => h.2)
      fun _ _ h hledger => ⟨⟨h.1.stored, h.1.marked⟩, hledger⟩
  have hgossip : Preserves (KeptFrom base) ((modify fun node : Node =>
      if current.ledger.height < node.ledger.height then
        node.pruneBurnBundles.enqueueGossip (.block block)
      else node) : Mutate Error Node Unit) := by
    refine preserves_modify fun other hother => ?_
    split
    · exact ⟨((enqueueGossip_subStore _ _).trans (pruneBurnBundles_subStore _)).trans hother.1,
        hother.2⟩
    · exact hother
  exact preserves_bind hzoom (fun _ => hgossip) current hcurrent

lemma receiveBlock_collected {block : Block} {verifyVdf : Bool} {nowMs : ℕ}
    (collected : Collected seen node) :
    Collected seen (after (Node.receiveBlock block verifyVdf nowMs) node) := by
  have hafter := receiveBlock_kept node block verifyVdf nowMs node ⟨.refl node, .inl rfl⟩
  exact collected.move hafter.1 hafter.2

lemma importChainSnapshot_collected {snapshot : ChainSnapshot} {nowMs : ℕ}
    (collected : Collected seen node) (raises : (NodeEvent.snapshot snapshot nowMs).Raises node)
    (done : node.importChainSnapshot snapshot nowMs = .ok node') : Collected seen node' := by
  simp only [Node.importChainSnapshot, Outcome.bind_eq_ok, Outcome.pure_eq_ok] at done
  obtain ⟨_, -, ⟨replaced, ledger⟩, hextended, rfl⟩ := done
  simp only [Ledger.extendFromSnapshotWithVdfPolicy, Outcome.bind_eq_ok] at hextended
  obtain ⟨_, -, candidate, hcandidate, hadopted⟩ := hextended
  simp only [Ledger.adoptCandidate, Outcome.bind_eq_ok] at hadopted
  obtain ⟨ancestor, hancestor, hadopted⟩ := hadopted
  cases hchoice : node.ledger.chooseFork candidate ancestor with
  | keepLocal =>
    simp only [if_pos hchoice, Outcome.pure_eq_ok, Prod.mk.injEq] at hadopted
    obtain ⟨rfl, rfl⟩ := hadopted
    exact collected
  | switchToCandidate =>
    obtain ⟨pools, hpools⟩ :=
      node.ledger.replaceWithBetterChain_eq candidate (node.ledger.forkBlocks ancestor)
    rw [hchoice, if_neg (by simp), hpools] at hadopted
    simp only [Outcome.pure_eq_ok, Prod.mk.injEq] at hadopted
    obtain ⟨rfl, rfl⟩ := hadopted
    have hraises : node.Raises (candidate.withPools pools) :=
      raises candidate ancestor hcandidate hancestor hchoice
    exact imported_collected collected hraises node.ledger.height

/-- What one step collects. -/
lemma RaisingStep.collected {event : NodeEvent} (step : RaisingStep node event node')
    (collected : Collected seen node) : Collected (seen ++ event.bundles) node' := by
  obtain ⟨taken, raises⟩ := step
  cases taken with
  | received => exact receiveBurnBundle_collected collected
  | published built => exact publish_collected collected built
  | @transaction received =>
    have stable := Collected.poolStable (seen ++ []) node.ledger.tip
    exact (process_stable stable received node
      ⟨collected.mono (List.subset_append_left _ _), rfl⟩).1
  | block => exact (receiveBlock_collected collected).mono (List.subset_append_left _ _)
  | @imported _ ledger _ done =>
    apply Collected.mono _ (List.subset_append_left _ _)
    by_cases replaces : node.Replaces ledger
    · rw [importVerifiedLedger_of_replaces replaces, Except.ok.injEq, Prod.mk.injEq] at done
      exact done.2 ▸ imported_collected collected (raises replaces) _
    · rw [importVerifiedLedger_of_not_replaces replaces done]
      exact collected
  | snapshot done =>
    exact (importChainSnapshot_collected collected raises done).mono
      (List.subset_append_left _ _)

/-- What a run collects. -/
lemma run_collected {events : List NodeEvent} (fresh : node.NoneCollected)
    (run : Runs.Run RaisingStep node events node') :
    Collected (events.flatMap NodeEvent.bundles) node' := by
  refine run.track (fun done node => Collected (done.flatMap NodeEvent.bundles) node) ?_
    (.of_noneCollected fresh)
  intro done before event left hbefore step
  rw [List.flatMap_append, List.flatMap_singleton]
  exact step.collected hbefore

/-! ## The store follows the tip -/

omit [Crypto] [SerdeJson] in
lemma mem_usableBurnBundles {bundle : BurnBundle} :
    bundle ∈ node.usableBurnBundles ↔ ∃ key, node.burnBundles[key]? = some bundle
      ∧ key.height = node.ledger.height + 1 ∧ key ∉ node.equivocatedBurnBundleSlots := by
  simp only [Node.usableBurnBundles, List.mem_mergeSort, List.mem_map, List.mem_filter,
    Prod.exists, exists_eq_right, Std.ExtTreeMap.mem_toList_iff_getElem?_eq_some,
    decide_eq_true_eq]

/-- The bundles usable are for the current tip, only equivocating members are treated as such,
and a member that has not yet signed for the current tip can publish its bundle. -/
structure FollowsTip (seen : List BurnBundle) (node : Node) : Prop where
  usable : ∀ bundle ∈ node.usableBurnBundles,
    bundle.height = node.ledger.height + 1 ∧ bundle.prevHash = node.ledger.tip.hash
  equivocating : ∀ key ∈ node.equivocatedBurnBundleSlots,
    ∃ first ∈ seen, ∃ second ∈ seen, DoubleSigned key first second
  canPublish : ∀ (pools : Pools) (bundle : BurnBundle),
    (∀ signed ∈ seen, signed.Signed → signed.key = bundle.key →
      signed.prevHash ≠ node.ledger.tip.hash) →
    (∃ validated, (node.ledger.withPools pools).validateNextBlockBurnBundles [bundle]
      = .ok validated) →
    bundle ∈ (after (Node.publishBurnBundle (node.ledger.withPools pools) bundle) node).usableBurnBundles

lemma Collected.followsTip (collected : Collected seen node) : FollowsTip seen node where
  usable := fun bundle husable => by
    obtain ⟨key, hstored, hheight, -⟩ := mem_usableBurnBundles.mp husable
    obtain ⟨rfl, -, -, -, hparent⟩ := collected.stored key bundle hstored
    exact ⟨hheight, hparent hheight⟩
  equivocating := fun key hmarked => by
    obtain ⟨-, first, hfirst, second, hsecond, hdouble, -⟩ := collected.marked key hmarked
    exact ⟨first, hfirst, second, hsecond, hdouble⟩
  canPublish := fun pools bundle hunsigned hvalidated => by
    have hheight : bundle.key.height = node.ledger.height + 1 :=
      (validateNext_validFor hvalidated.choose_spec).height
    have hunmarked : bundle.key ∉ node.equivocatedBurnBundleSlots := by
      intro hmarked
      obtain ⟨-, first, hfirst, _, -, hdouble, hparent⟩ := collected.marked _ hmarked
      exact hunsigned first hfirst hdouble.firstSigned hdouble.firstKey (hparent hheight)
    have hnone : node.burnBundles[bundle.key]? = none := by
      rw [Option.eq_none_iff_forall_ne_some]
      intro stored hstored
      obtain ⟨hkey, hmem, hsigned, -, hparent⟩ := collected.stored _ _ hstored
      exact hunsigned stored hmem hsigned hkey (hparent hheight)
    rw [(publishBurnBundle_after _ bundle node).1 hunmarked hnone hvalidated]
    refine mem_usableBurnBundles.mpr ⟨bundle.key, ?_, hheight, hunmarked⟩
    exact Std.ExtTreeMap.getElem?_insert_self

/-- In every run whose steps change the tip only upwards, or with nothing collected, the store
follows the tip. -/
theorem followsTip_of_raising {start node : Node} {events : List NodeEvent}
    (fresh : start.NoneCollected) (run : Runs.Run RaisingStep start events node) :
    FollowsTip (events.flatMap NodeEvent.bundles) node :=
  (run_collected fresh run).followsTip

end Steps

end Store

namespace Toy

attribute [local instance] crypto
attribute [local instance] emptyLines

lemma quietNode_noneCollected (ledger : Ledger) : (quietNode ledger).NoneCollected :=
  ⟨fun _ => Std.ExtTreeMap.getElem?_empty, fun _ => Std.ExtTreeMap.not_mem_empty⟩

/-- A submitted transaction does not disturb the store. -/
theorem followsTip_submitted : FollowsTip [] minedNode :=
  followsTip_of_raising (quietNode_noneCollected genesis) (.cons
    (⟨NodeStep.transaction, trivial⟩ :
      RaisingStep (quietNode genesis) (.transaction (.submitted (minedCoin 0))) minedNode) (.nil _))

/-- The owner's bundle for the next block, without burns. -/
def signedBundle (ledger : Ledger) : BurnBundle :=
  let bundle (signature : Str) : BurnBundle := {
    height := ledger.tip.height + 1
    prevHash := ledger.tip.hash
    slot := 0
    member := owner
    rewardAddress := none
    burns := []
    burnsV2 := []
    signature := signature }
  bundle (hexEncode (sign ownerKey (utf8 (bundle []).canonicalPayload)).val)

def rivalNode : Node :=
  after (Node.receiveBlock rivalBlock true rivalBlock.timestampMs) (quietNode genesis)

def rivalBundle : BurnBundle := signedBundle rivalNode.ledger

/-- The node on the competing block, with the owner's bundle. -/
def collectedNode : Node := after (Node.receiveBurnBundle rivalBundle) rivalNode

/-- The first block arrives and is preferred. -/
def reorganization : Result (Ledger × Bool × Node) := do
  let ledger ← validateBlocksExtension none [block] block.timestampMs collectedNode.ledger
  let imported ← collectedNode.importVerifiedLedger ledger
  pure (ledger, imported)

set_option maxRecDepth 10000 in
/-- The reorganization succeeds and keeps the owner's bundle for the old tip. -/
lemma reorganization_keeps : reorganization.toOption.any (fun result =>
    decide (result.2.2.burnBundles[rivalBundle.key]? = some rivalBundle
      ∧ rivalBundle.key.height = result.2.2.ledger.height + 1
      ∧ rivalBundle.key ∉ result.2.2.equivocatedBurnBundleSlots
      ∧ rivalBundle.prevHash ≠ result.2.2.ledger.tip.hash)) = true := by decide +kernel

lemma reorganization_isOk : reorganization.isOk = true := Outcome.isOk_of_any reorganization_keeps

/-- The node on the first block. -/
def reorganizedNode : Node := (Outcome.value reorganization reorganization_isOk).2.2

lemma reorganization_imports {result : Ledger × Bool × Node} (h : reorganization = .ok result) :
    NodeStep collectedNode (.imported result.1) result.2.2 := by
  simp only [reorganization, Outcome.bind_eq_ok, Outcome.pure_eq_ok] at h
  obtain ⟨ledger, -, imported, himported, rfl⟩ := h
  exact .imported himported

lemma reorganized_run : ∃ ledger, Runs.Run NodeStep (quietNode genesis)
    [.block rivalBlock, .received rivalBundle, .imported ledger] reorganizedNode := by
  have hblock : NodeStep (quietNode genesis) (.block rivalBlock) rivalNode := .block
  have hreceived : NodeStep rivalNode (.received rivalBundle) collectedNode := .received
  have himport := reorganization_imports (Outcome.eq_ok_value reorganization reorganization_isOk)
  rw [reorganizedNode]
  exact ⟨_, .cons hblock (.cons hreceived (.cons himport (.nil _)))⟩

lemma reorganized_store : reorganizedNode.burnBundles[rivalBundle.key]? = some rivalBundle
    ∧ rivalBundle.key.height = reorganizedNode.ledger.height + 1
    ∧ rivalBundle.key ∉ reorganizedNode.equivocatedBurnBundleSlots
    ∧ rivalBundle.prevHash ≠ reorganizedNode.ledger.tip.hash := by
  rw [reorganizedNode]
  have hkeeps := Outcome.value_of_any reorganization_keeps reorganization_isOk
  simpa only [decide_eq_true_eq] using hkeeps

/-- After a reorganization to a tip of the same height, a bundle for the old tip is usable. -/
theorem staleBundle_usable : ∃ events node, (quietNode genesis).NoneCollected
    ∧ Runs.Run NodeStep (quietNode genesis) events node
    ∧ ¬ FollowsTip (events.flatMap NodeEvent.bundles) node := by
  obtain ⟨ledger, run⟩ := reorganized_run
  obtain ⟨hstored, hheight, hunmarked, hparent⟩ := reorganized_store
  refine ⟨_, _, quietNode_noneCollected genesis, run, fun follows => hparent ?_⟩
  exact (follows.usable rivalBundle
    (mem_usableBurnBundles.mpr ⟨_, hstored, hheight, hunmarked⟩)).2

end Toy

end Iuna
