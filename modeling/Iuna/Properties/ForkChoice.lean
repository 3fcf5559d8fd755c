import Iuna.Library.Preference
import Iuna.Properties.Launch

/-!
# Order independence of fork choice

`chooseFork` compares two chains from the block where they part, by finality checkpoints, heights
and leader scores.  For three chains these are three different blocks.  It is nevertheless one
comparison of whole chains: the blocks before the fork have the same scores on both sides, so the
lexicographic comparison may start at the genesis block (`chooseFork_eq_forkOrder`), and there it
is transitive.  A node that keeps the better of what it has and what it is offered then ends on a
chain that does not depend on the order of the offers.
-/

namespace Iuna

open Std

/-! ## The order of chains -/

/-- Checkpoints by height, then the smaller hash; a checkpoint before none. -/
def compareCheckpoints : Option FinalityCheckpoint → Option FinalityCheckpoint → Ordering
  | none, none => .eq
  | none, some _ => .lt
  | some _, none => .gt
  | some a, some b =>
    compareLex (compareOn FinalityCheckpoint.height)
      (fun a b : FinalityCheckpoint => compare b.hash a.hash) a b

instance checkpointHash_transCmp :
    TransCmp fun a b : FinalityCheckpoint => compare b.hash a.hash :=
  inferInstanceAs (TransCmp fun a b => compareOn FinalityCheckpoint.hash b a)

instance checkpoints_orientedCmp : OrientedCmp compareCheckpoints where
  eq_swap {a b} := by
    cases a <;> cases b
    · rfl
    · rfl
    · rfl
    · exact (inferInstance : OrientedCmp (compareLex (compareOn FinalityCheckpoint.height)
        fun a b : FinalityCheckpoint => compare b.hash a.hash)).eq_swap

instance checkpoints_transCmp : TransCmp compareCheckpoints where
  isLE_trans {a b c} hab hbc := by
    match a, b, c with
    | none, _, none => rfl
    | none, _, some _ => rfl
    | some _, some _, none => cases hbc
    | some _, none, _ => cases hab
    | some a, some b, some c =>
      exact (inferInstance : TransCmp (compareLex (compareOn FinalityCheckpoint.height)
        fun a b : FinalityCheckpoint => compare b.hash a.hash)).isLE_trans hab hbc

instance leaderScore_transCmp : TransCmp LeaderScore.cmp :=
  inferInstanceAs (TransCmp (compareLex
    (compareLex (compareOn LeaderScore.finalizerModeRank) (compareOn LeaderScore.finalizerRank))
    (compareOn LeaderScore.proofRank)))

lemma eq_of_compareCheckpoints {a b : Option FinalityCheckpoint}
    (h : compareCheckpoints a b = .eq) : a = b := by
  match a, b with
  | none, none => rfl
  | none, some _ => cases h
  | some _, none => cases h
  | some a, some b =>
    have hlex : compareLex (compareOn FinalityCheckpoint.height)
        (fun a b : FinalityCheckpoint => compare b.hash a.hash) a b = .eq := h
    obtain ⟨hheight, hhash⟩ := compareLex_eq_eq.mp hlex
    have hheights : a.height = b.height := Nat.compare_eq_eq.mp hheight
    have hhashes : b.hash = a.hash := LawfulEqCmp.compare_eq_iff_eq.mp hhash
    cases a
    cases b
    simp_all

instance leaderScore_lawfulEqCmp : LawfulEqCmp LeaderScore.cmp where
  eq_of_compare {a b} h := by
    obtain ⟨hranks, hproof⟩ := Ordering.then_eq_eq.mp h
    obtain ⟨hmode, hrank⟩ := Ordering.then_eq_eq.mp hranks
    have hmodes : a.finalizerModeRank = b.finalizerModeRank := Nat.compare_eq_eq.mp hmode
    have hrankss : a.finalizerRank = b.finalizerRank := Nat.compare_eq_eq.mp hrank
    have hproofs : a.proofRank = b.proofRank := LawfulEqCmp.eq_of_compare hproof
    cases a
    cases b
    simp_all

lemma objectiveFinalityQuality_eq (a b : Option FinalityCheckpoint) :
    objectiveFinalityQuality a b = .ofOrdering (compareCheckpoints a b).swap := by
  match a, b with
  | none, none => rfl
  | none, some _ => rfl
  | some _, none => rfl
  | some a, some b =>
    have hself : compare b.hash a.hash = .eq ↔ b.hash = a.hash := LawfulEqCmp.compare_eq_iff_eq
    simp only [objectiveFinalityQuality, compareCheckpoints, compareLex, compareOn]
    cases hheight : compare a.height b.height with
    | lt => rfl
    | gt => rfl
    | eq =>
      rw [Ordering.eq_then]
      by_cases hhash : a.hash = b.hash
      · rw [if_pos hhash, hself.mpr hhash.symm]
        rfl
      · rw [if_neg hhash]
        cases hcompare : compare b.hash a.hash with
        | lt => rfl
        | eq => exact absurd (hself.mp hcompare).symm hhash
        | gt => rfl

namespace Ledger

variable [Crypto]

/-- The leader scores of the whole chain. -/
def scores (ledger : Ledger) : List LeaderScore := ledger.chain.map Block.leaderScore

/-- The better chain is the greater one: a later checkpoint, then the greater height, then the
smaller scores. -/
def forkOrder : Ledger → Ledger → Ordering :=
  compareLex (fun a b => compareCheckpoints a.objectiveFinalityCheckpoint
      b.objectiveFinalityCheckpoint)
    (compareLex (compareOn Ledger.height)
      fun a b => List.compareLex LeaderScore.cmp b.scores a.scores)

instance scores_transCmp : TransCmp (List.compareLex LeaderScore.cmp) := inferInstance

instance forkOrder_transCmp : TransCmp forkOrder := by
  have hcheckpoint : TransCmp fun a b : Ledger => compareCheckpoints a.objectiveFinalityCheckpoint
      b.objectiveFinalityCheckpoint :=
    { eq_swap := checkpoints_orientedCmp.eq_swap
      isLE_trans := checkpoints_transCmp.isLE_trans }
  have hscores : TransCmp fun a b : Ledger => List.compareLex LeaderScore.cmp b.scores a.scores :=
    { eq_swap := scores_transCmp.eq_swap
      isLE_trans := fun hab hbc => scores_transCmp.isLE_trans hbc hab }
  unfold forkOrder
  infer_instance

/-- Two chains tie: they have the same checkpoint, the same height and the same leader scores. -/
structure Tied (a b : Ledger) : Prop where
  checkpoint : a.objectiveFinalityCheckpoint = b.objectiveFinalityCheckpoint
  height : a.height = b.height
  scores : a.scores = b.scores

/-- Only chains that tie are equal in the order. -/
lemma tied_iff {a b : Ledger} : a.Tied b ↔ forkOrder a b = .eq := by
  unfold forkOrder
  rw [compareLex_eq_eq, compareLex_eq_eq]
  constructor
  · rintro ⟨hcheckpoint, hheight, hscores⟩
    rw [hcheckpoint, hscores]
    exact ⟨ReflCmp.compare_self, Nat.compare_eq_eq.mpr hheight, ReflCmp.compare_self⟩
  · rintro ⟨hcheckpoint, hheight, hscores⟩
    have hsame : b.scores = a.scores := LawfulEqCmp.eq_of_compare hscores
    exact ⟨eq_of_compareCheckpoints hcheckpoint, Nat.compare_eq_eq.mp hheight, hsame.symm⟩

/-! ## Linked chains -/

omit [Crypto] in
/-- A whole chain: the heights count from zero, and every block names its parent. -/
structure Linked (ledger : Ledger) : Prop where
  height : ∀ i (hi : i < ledger.chain.length), ledger.chain[i].height = i
  prevHash : ∀ i (hi : i + 1 < ledger.chain.length),
    ledger.chain[i + 1].prevHash = ledger.chain[i].hash

omit [Crypto] in
lemma tip_eq_getElem (ledger : Ledger) :
    ledger.tip = ledger.chain.get ⟨ledger.chain.length - 1,
      Nat.sub_one_lt_of_lt (List.length_pos_iff.mpr ledger.chainNonempty)⟩ :=
  List.getLast_eq_getElem ledger.chainNonempty

omit [Crypto] in
lemma Linked.length {ledger : Ledger} (linked : ledger.Linked) :
    ledger.chain.length = ledger.height + 1 := by
  have hpositive := List.length_pos_iff.mpr ledger.chainNonempty
  unfold Ledger.height
  rw [tip_eq_getElem, List.get_eq_getElem, linked.height]
  dsimp only
  omega

omit [Crypto] in
lemma Linked.push {ledger ledger' : Ledger} {block : Block} (linked : ledger.Linked)
    (chain : ledger'.chain = ledger.chain ++ [block]) (height : block.height = ledger.tip.height + 1)
    (prevHash : block.prevHash = ledger.tip.hash) : ledger'.Linked := by
  have hlength := linked.length
  have hpush : ledger'.chain.length = ledger.chain.length + 1 := by simp [chain]
  constructor
  · intro i hi
    simp only [chain]
    by_cases hold : i < ledger.chain.length
    · rw [List.getElem_append_left hold, linked.height]
    · rw [List.getElem_append_right (by omega)]
      simp only [List.getElem_singleton]
      unfold Ledger.height at hlength
      omega
  · intro i hi
    simp only [chain]
    by_cases hold : i + 1 < ledger.chain.length
    · rw [List.getElem_append_left hold, List.getElem_append_left (by omega), linked.prevHash]
    · rw [List.getElem_append_right (by omega), List.getElem_append_left (by omega)]
      simp only [List.getElem_singleton, prevHash, tip_eq_getElem, List.get_eq_getElem]
      congr 2
      omega

/-- A genesis block is a linked chain. -/
lemma initial_linked {ledger : Ledger} (initial : Initial ledger) : ledger.Linked := by
  obtain ⟨_, _, _, _, _, _, _, _, -, hgenesis, -, -, rfl⟩ := initial_eq initial
  constructor
  · intro i hi
    obtain rfl : i = 0 := by simpa [atGenesis] using hi
    simp only [atGenesis, List.getElem_cons_zero]
    rw [hgenesis]
    rfl
  · intro i hi
    simp [atGenesis] at hi

/-- The application of a block keeps the chain linked. -/
lemma Linked.applied {ledger ledger' : Ledger} {block : Block} {verify : Bool} {nowMs : ℕ}
    (linked : ledger.Linked)
    (applied : applyBlockWithVdfPolicy block verify nowMs ledger = .ok () ledger') :
    ledger'.Linked := by
  rcases applyBlockWithVdfPolicy_eq_ok applied with ⟨-, rfl⟩ | h
  · exact linked
  · obtain ⟨effects, context, pools, hnew, -, -, -, -, rfl⟩ := h
    have hchecked := precheck_eq_ok_true.mp hnew
    obtain ⟨draws, observations, windows, checkpoint, hrecord⟩ :=
      recordBlock_eq ledger block effects context
    refine linked.push ?_ hchecked.height hchecked.prevHash
    rw [hrecord]
    rfl

/-- A chain that was rebuilt from a snapshot is linked. -/
theorem linked_of_snapshot {snapshot : ChainSnapshot} {verify : Bool} {nowMs : ℕ} {ledger : Ledger}
    (restored : fromSnapshotWithVdfPolicy snapshot verify nowMs = .ok ledger) : ledger.Linked := by
  simp only [fromSnapshotWithVdfPolicy, Outcome.bind_eq_ok, Outcome.pure_eq_ok,
    Mutate.outcome_eq_ok, Prod.exists] at restored
  obtain ⟨start, hstart, u, ledger, hrun, rfl⟩ := restored
  exact Mutate.forM_invariant Linked (fun _ _ _ _ linked applied => linked.applied applied)
    (initial_linked (.snapshot hstart)) hrun

/-! ## The fork point -/

omit [Crypto] in
/-- The fork point of two linked chains: the blocks at this height have the same hash, and the
later blocks of equal height do not. -/
lemma Linked.forkPoint {a b : Ledger} {h : ℕ} (linkedA : a.Linked) (linkedB : b.Linked)
    (found : a.forkPointWithCandidate b = .ok h) :
    ∃ (hA : h < a.chain.length) (hB : h < b.chain.length), a.chain[h].hash = b.chain[h].hash := by
  simp only [forkPointWithCandidate, Outcome.bind_eq_ok, Outcome.bailIf_eq_ok, orError,
    Outcome.ofOption_eq_ok, Outcome.pure_eq_ok] at found
  obtain ⟨_, -, ancestor, hfind, rfl⟩ := found
  obtain ⟨i, hi, rfl⟩ := List.mem_iff_getElem.mp
    (List.mem_reverse.mp (List.mem_of_find?_eq_some hfind))
  have hcommon := List.find?_some hfind
  simp only [List.any_eq_true, decide_eq_true_eq] at hcommon
  obtain ⟨remote, hremote, hheight, hhash⟩ := hcommon
  obtain ⟨j, hj, rfl⟩ := List.mem_iff_getElem.mp hremote
  rw [linkedA.height, linkedB.height] at hheight
  subst hheight
  rw [linkedA.height]
  exact ⟨hi, hj, hhash.symm⟩

omit [Crypto] in
/-- No common block is above the fork point. -/
lemma Linked.le_forkPoint {a b : Ledger} {h i : ℕ} (linkedA : a.Linked) (linkedB : b.Linked)
    (found : a.forkPointWithCandidate b = .ok h) (hA : i < a.chain.length)
    (hB : i < b.chain.length) (hash : a.chain[i].hash = b.chain[i].hash) : i ≤ h := by
  simp only [forkPointWithCandidate, Outcome.bind_eq_ok, Outcome.bailIf_eq_ok, orError,
    Outcome.ofOption_eq_ok, Outcome.pure_eq_ok] at found
  obtain ⟨_, -, ancestor, hfind, rfl⟩ := found
  obtain ⟨-, k, hk, rfl, hnone⟩ := List.find?_eq_some_iff_getElem.mp hfind
  rw [List.length_reverse] at hk
  rw [List.getElem_reverse, linkedA.height]
  by_contra hlater
  have hmissing := hnone (a.chain.length - 1 - i) (by omega)
  rw [List.getElem_reverse] at hmissing
  have hindex : a.chain.length - 1 - (a.chain.length - 1 - i) = i := by omega
  simp only [hindex, Bool.not_eq_true', List.any_eq_false, decide_eq_true_eq] at hmissing
  refine hmissing b.chain[i] (List.getElem_mem hB) ⟨?_, hash.symm⟩
  rw [linkedA.height, linkedB.height]

omit [Crypto] in
/-- Two chains of one genesis block have a fork point. -/
lemma Linked.exists_forkPoint {a b : Ledger} (linkedA : a.Linked) (linkedB : b.Linked)
    (genesis : a.genesisHash = b.genesisHash) : ∃ h, a.forkPointWithCandidate b = .ok h := by
  have hsome : (a.chain.reverse.find? fun localBlock => b.chain.any fun remote =>
      remote.height = localBlock.height ∧ remote.hash = localBlock.hash).isSome := by
    rw [List.find?_isSome]
    refine ⟨a.genesis, List.mem_reverse.mpr (List.head_mem _), ?_⟩
    simp only [List.any_eq_true, decide_eq_true_eq]
    refine ⟨b.genesis, List.head_mem _, ?_, genesis.symm⟩
    have hA := linkedA.height 0 (List.length_pos_iff.mpr a.chainNonempty)
    have hB := linkedB.height 0 (List.length_pos_iff.mpr b.chainNonempty)
    simp only [Ledger.genesis, List.head_eq_getElem]
    rw [hA, hB]
  obtain ⟨ancestor, hancestor⟩ := Option.isSome_iff_exists.mp hsome
  refine ⟨ancestor.height, ?_⟩
  simp only [forkPointWithCandidate, Outcome.bind_eq_ok, Outcome.bailIf_eq_ok, orError,
    Outcome.ofOption_eq_ok, Outcome.pure_eq_ok]
  exact ⟨(), by simpa using genesis.symm, ancestor, hancestor, rfl⟩

omit [Crypto] in
/-- The blocks from the first diverging height on are the rest of the chain. -/
lemma Linked.forkBlocks {ledger : Ledger} (linked : ledger.Linked) (h : ℕ) :
    ledger.forkBlocks h = ledger.chain.drop (h + 1) := by
  unfold Ledger.forkBlocks
  conv_lhs => rw [← List.take_append_drop (h + 1) ledger.chain]
  rw [List.filter_append, List.filter_eq_nil_iff.mpr, List.filter_eq_self.mpr, List.nil_append]
  · intro block hblock
    obtain ⟨i, hi, rfl⟩ := List.mem_iff_getElem.mp hblock
    rw [List.getElem_drop, linked.height]
    simp
  · intro block hblock
    obtain ⟨i, hi, rfl⟩ := List.mem_iff_getElem.mp hblock
    rw [List.length_take] at hi
    rw [List.getElem_take, linked.height]
    simp only [decide_eq_true_eq]
    omega

/-- A block hash binds what fork choice reads: the parent and the leader score. -/
def HashBinds (a b : Ledger) : Prop :=
  ∀ x ∈ a.chain, ∀ y ∈ b.chain, x.hash = y.hash →
    x.prevHash = y.prevHash ∧ x.leaderScore = y.leaderScore

/-- Below a common block two chains have the same hashes and scores. -/
lemma Linked.common {a b : Ledger} (linkedA : a.Linked) (linkedB : b.Linked)
    (binds : HashBinds a b) {h : ℕ} (hA : h < a.chain.length) (hB : h < b.chain.length)
    (hash : a.chain[h].hash = b.chain[h].hash) :
    (a.chain.take (h + 1)).map Block.leaderScore = (b.chain.take (h + 1)).map Block.leaderScore := by
  induction h with
  | zero =>
    rw [List.take_add_one, List.take_add_one]
    have hscore := (binds _ (List.getElem_mem hA) _ (List.getElem_mem hB) hash).2
    simp [List.getElem?_eq_getElem hA, List.getElem?_eq_getElem hB, hscore]
  | succ h ih =>
    obtain ⟨hparent, hscore⟩ := binds _ (List.getElem_mem hA) _ (List.getElem_mem hB) hash
    rw [linkedA.prevHash h hA, linkedB.prevHash h hB] at hparent
    have hprior := ih (by omega) (by omega) hparent
    rw [← List.take_append_getElem hA, ← List.take_append_getElem hB, List.map_append,
      List.map_append, hprior]
    simp [hscore]

lemma compareForkBlocks_eq : ∀ {xs ys : List Block}, xs.length = ys.length →
    compareForkBlocks xs ys = .ofOrdering (List.compareLex LeaderScore.cmp
      (xs.map Block.leaderScore) (ys.map Block.leaderScore))
  | [], [], _ => by simp [compareForkBlocks, List.compareLex_nil_nil, ForkQuality.ofOrdering]
  | x :: xs, y :: ys, h => by
    have hrest : compareForkBlocks xs ys = .ofOrdering (List.compareLex LeaderScore.cmp
        (xs.map Block.leaderScore) (ys.map Block.leaderScore)) :=
      compareForkBlocks_eq (Nat.succ.inj h)
    rw [List.map_cons, List.map_cons, List.compareLex_cons_cons]
    unfold compareForkBlocks
    cases hscore : x.leaderScore.cmp y.leaderScore with
    | eq => rw [hrest, Ordering.eq_then]
    | lt => rfl
    | gt => rfl

omit [Crypto] in
lemma compareLex_append (common xs ys : List LeaderScore) :
    List.compareLex LeaderScore.cmp (common ++ xs) (common ++ ys)
      = List.compareLex LeaderScore.cmp xs ys := by
  induction common with
  | nil => rfl
  | cons score common ih =>
    have hself : LeaderScore.cmp score score = .eq := ReflCmp.compare_self
    rw [List.cons_append, List.cons_append, List.compareLex_cons_cons, hself, Ordering.eq_then, ih]

/-- The comparison from the fork on is that of the whole chains. -/
lemma Linked.forkQuality {a b : Ledger} (linkedA : a.Linked) (linkedB : b.Linked)
    (binds : HashBinds a b) {h : ℕ} (found : a.forkPointWithCandidate b = .ok h)
    (heights : a.height = b.height) :
    a.forkQuality b h = .ofOrdering (List.compareLex LeaderScore.cmp a.scores b.scores) := by
  obtain ⟨hA, hB, hhash⟩ := linkedA.forkPoint linkedB found
  have hlength : a.chain.length = b.chain.length := by
    rw [linkedA.length, linkedB.length, heights]
  have hcommon := linkedA.common linkedB binds hA hB hhash
  unfold Ledger.forkQuality
  rw [linkedA.forkBlocks, linkedB.forkBlocks, compareForkBlocks_eq (by simp [hlength])]
  congr 1
  unfold scores
  conv_rhs => rw [← List.take_append_drop (h + 1) a.chain, ← List.take_append_drop (h + 1) b.chain]
  rw [List.map_append, List.map_append, hcommon, compareLex_append]

/-- **One comparison.** From the activation of objective finality on, a candidate with another tip
is chosen exactly when it is the greater chain. -/
theorem chooseFork_eq_forkOrder {a b : Ledger} (linkedA : a.Linked) (linkedB : b.Linked)
    (binds : HashBinds a b) {h : ℕ} (found : a.forkPointWithCandidate b = .ok h)
    (active : objectiveFinalityActivationHeight ≤ h + 1) (tips : a.tip.hash ≠ b.tip.hash) :
    a.chooseFork b h = .switchToCandidate ↔ forkOrder a b = .lt := by
  have hquality := linkedA.forkQuality linkedB binds found
  have horder : forkOrder a b = (compareCheckpoints a.objectiveFinalityCheckpoint
      b.objectiveFinalityCheckpoint).then ((compare a.height b.height).then
        (List.compareLex LeaderScore.cmp b.scores a.scores)) := rfl
  have hswap : List.compareLex LeaderScore.cmp b.scores a.scores
      = (List.compareLex LeaderScore.cmp a.scores b.scores).swap := OrientedCmp.eq_swap
  unfold chooseFork
  rw [if_neg (fun h => tips h.2.symm), if_neg (by omega), objectiveFinalityQuality_eq, horder]
  cases compareCheckpoints a.objectiveFinalityCheckpoint b.objectiveFinalityCheckpoint with
  | lt => simp [ForkQuality.ofOrdering]
  | gt => simp [ForkQuality.ofOrdering]
  | eq =>
    simp only [Ordering.swap_eq, ForkQuality.ofOrdering, Ordering.eq_then]
    unfold chooseByHeightAndQuality
    by_cases hhigher : a.height < b.height
    · have hlt : compare a.height b.height = .lt := Nat.compare_eq_lt.mpr hhigher
      rw [if_pos hhigher, hlt]
      simp
    · by_cases hlower : b.height < a.height
      · have hgt : compare a.height b.height = .gt := Nat.compare_eq_gt.mpr hlower
        rw [if_neg hhigher, if_pos hlower, hgt]
        simp
      · have hequal : a.height = b.height := by omega
        have heq : compare a.height b.height = .eq := Nat.compare_eq_eq.mpr hequal
        rw [if_neg hhigher, if_neg hlower, hquality hequal, heq, Ordering.eq_then, hswap]
        cases List.compareLex LeaderScore.cmp a.scores b.scores with
        | lt => simp [ForkQuality.ofOrdering]
        | eq => simp [ForkQuality.ofOrdering]
        | gt => simp [ForkQuality.ofOrdering]

/-! ## Nodes that receive candidates -/

/-- The candidate is the better chain, seen from a node on `ledger`. -/
def Prefers (ledger candidate : Ledger) : Prop :=
  ∃ h, ledger.forkPointWithCandidate candidate = .ok h ∧
    ledger.chooseFork candidate h = .switchToCandidate

/-- A node that receives a candidate, `extend_from_snapshot` once it is rebuilt: an error leaves
the node as it was. -/
def receive (ledger candidate : Ledger) : Ledger :=
  match ledger.adoptCandidate candidate with
  | .ok (_, ledger') => ledger'
  | .error _ => ledger

/-- Different chains of one genesis block, each of them linked as a chain is that was rebuilt from
a snapshot (`linked_of_snapshot`), that part at heights where objective finality is active. -/
structure Contenders (contenders : List Ledger) : Prop where
  linked : ∀ a ∈ contenders, a.Linked
  genesis : ∀ a ∈ contenders, ∀ b ∈ contenders, a.genesisHash = b.genesisHash
  tips : ∀ a ∈ contenders, ∀ b ∈ contenders, a.tip.hash = b.tip.hash → a = b
  divergence : ∀ a ∈ contenders, ∀ b ∈ contenders, a ≠ b → ∀ h,
    a.forkPointWithCandidate b = .ok h → objectiveFinalityActivationHeight ≤ h + 1
  hashes : ∀ a ∈ contenders, ∀ b ∈ contenders, HashBinds a b

variable {contenders : List Ledger}

lemma Contenders.prefers_iff (h : Contenders contenders) {a b : Ledger} (ha : a ∈ contenders)
    (hb : b ∈ contenders) : a.Prefers b ↔ forkOrder a b = .lt := by
  by_cases hsame : a = b
  · subst hsame
    have hself : forkOrder a a = .eq := ReflCmp.compare_self
    constructor
    · rintro ⟨height, -, hchoice⟩
      rw [chooseFork, if_pos ⟨rfl, rfl⟩] at hchoice
      cases hchoice
    · intro hlt
      rw [hself] at hlt
      cases hlt
  · have htips : a.tip.hash ≠ b.tip.hash := fun htip => hsame (h.tips a ha b hb htip)
    have hchoose {height : ℕ} (found : a.forkPointWithCandidate b = .ok height) :=
      chooseFork_eq_forkOrder (h.linked a ha) (h.linked b hb) (h.hashes a ha b hb) found
        (h.divergence a ha b hb hsame height found) htips
    constructor
    · rintro ⟨height, found, hchoice⟩
      exact (hchoose found).mp hchoice
    · intro hlt
      obtain ⟨height, found⟩ :=
        (h.linked a ha).exists_forkPoint (h.linked b hb) (h.genesis a ha b hb)
      exact ⟨height, found, (hchoose found).mpr hlt⟩

/-- Resubmission changes the pools of the candidate only. -/
lemma replaceWithBetterChain_eq (ledger candidate : Ledger) (staleBlocks : List Block) :
    ∃ pools, ledger.replaceWithBetterChain candidate staleBlocks = candidate.withPools pools := by
  have hfold {α β : Type} (submit : α → Ledger → Mutate Error Pools β) (items : List α) :
      ∀ start : Ledger, ∃ pools, items.foldl
        (fun candidate item => candidate.submitIgnoringErrors (submit item)) start
          = start.withPools pools := by
    induction items with
    | nil => exact fun start => ⟨start.toPools, rfl⟩
    | cons item items ih =>
      intro start
      obtain ⟨first, hfirst⟩ : ∃ pools, start.submitIgnoringErrors (submit item)
          = start.withPools pools := by
        unfold submitIgnoringErrors
        split
        · exact ⟨_, rfl⟩
        · exact ⟨_, rfl⟩
      obtain ⟨pools, hpools⟩ := ih (start.withPools first)
      rw [List.foldl_cons, hfirst, hpools]
      exact ⟨pools, rfl⟩
  unfold replaceWithBetterChain
  dsimp only
  obtain ⟨legacy, hlegacy⟩ := hfold
    (fun transaction ledger => ledger.submitTransactionWithOutcome transaction) _ candidate
  rw [hlegacy]
  obtain ⟨pools, hpools⟩ := hfold
    (fun transaction ledger => ledger.submitTransactionV2 transaction) _ (candidate.withPools legacy)
  exact ⟨pools, hpools⟩

/-- A node keeps the better of its chain and the candidate. -/
lemma Contenders.receive_eq (h : Contenders contenders) {a b : Ledger} (ha : a ∈ contenders)
    (hb : b ∈ contenders) (pools : Pools) :
    ∃ pools', (a.withPools pools).receive b = (Preference.keep forkOrder a b).withPools pools' := by
  obtain ⟨height, found⟩ := (h.linked a ha).exists_forkPoint (h.linked b hb) (h.genesis a ha b hb)
  have hfound : (a.withPools pools).forkPointWithCandidate b = .ok height := found
  have hprefers : a.chooseFork b height = .switchToCandidate ↔ forkOrder a b = .lt := by
    rw [← h.prefers_iff ha hb]
    constructor
    · exact fun hchoice => ⟨height, found, hchoice⟩
    · rintro ⟨other, hother, hchoice⟩
      rw [found, Except.ok.injEq] at hother
      rwa [hother]
  have hchoose : (a.withPools pools).chooseFork b height = a.chooseFork b height := rfl
  have hadopt : (a.withPools pools).adoptCandidate b
      = if a.chooseFork b height = .keepLocal then pure (false, a.withPools pools)
        else pure (true, (a.withPools pools).replaceWithBetterChain b
          ((a.withPools pools).forkBlocks height)) := by
    unfold adoptCandidate
    rw [hfound, ← hchoose]
    rfl
  unfold receive Preference.keep
  rw [hadopt]
  cases hchoice : a.chooseFork b height with
  | keepLocal =>
    have hnot : ¬ forkOrder a b = .lt := fun hlt => by
      rw [hprefers.mpr hlt] at hchoice
      cases hchoice
    rw [if_pos rfl, if_neg hnot]
    exact ⟨pools, rfl⟩
  | switchToCandidate =>
    rw [if_neg (by simp), if_pos (hprefers.mp hchoice)]
    exact replaceWithBetterChain_eq _ _ _

lemma Contenders.receive_all (h : Contenders contenders) {offers : List Ledger}
    (hoffers : ∀ b ∈ offers, b ∈ contenders) :
    ∀ {start : Ledger}, start ∈ contenders → ∀ pools, ∃ pools',
      offers.foldl receive (start.withPools pools)
        = (Preference.settle forkOrder start offers).withPools pools' := by
  induction offers with
  | nil => exact fun _ pools => ⟨pools, rfl⟩
  | cons offer offers ih =>
    intro start hstart pools
    have hoffer := hoffers offer List.mem_cons_self
    obtain ⟨kept, hkept⟩ := h.receive_eq hstart hoffer pools
    have hmem : Preference.keep forkOrder start offer ∈ contenders := by
      unfold Preference.keep
      split
      · exact hoffer
      · exact hstart
    rw [List.foldl_cons, hkept, Preference.settle_cons]
    exact ih (fun b hb => hoffers b (List.mem_cons_of_mem _ hb)) hmem kept

/-- **Order independence of fork choice.** Among different chains of one genesis block that part
at or above the activation of objective finality, the better chain is the greater one in the order
of checkpoints, heights and leader scores.  So being the better chain is asymmetric and transitive,
and of two chains that differ in one of the three exactly one is better, whichever of them is the
local one.  If no two of them tie, then nodes that have seen the same chains, in whatever order and
however often, are on the same chain. -/
theorem fork_choice_converges (h : Contenders contenders) :
    (∀ a ∈ contenders, ∀ b ∈ contenders, a.Prefers b ↔ forkOrder a b = .lt) ∧
    (∀ a ∈ contenders, ∀ b ∈ contenders, a.Prefers b → ¬ b.Prefers a) ∧
    (∀ a ∈ contenders, ∀ b ∈ contenders, ∀ c ∈ contenders,
      a.Prefers b → b.Prefers c → a.Prefers c) ∧
    (∀ a ∈ contenders, ∀ b ∈ contenders, ¬ a.Tied b → Xor (a.Prefers b) (b.Prefers a)) ∧
    ((∀ a ∈ contenders, ∀ b ∈ contenders, a ≠ b → ¬ a.Tied b) →
      ∀ start start' offers offers' pools pools',
        (∀ a ∈ start :: offers, a ∈ contenders) →
        (∀ a, a ∈ start :: offers ↔ a ∈ start' :: offers') →
        (offers.foldl receive (start.withPools pools)).chain
          = (offers'.foldl receive (start'.withPools pools')).chain) := by
  have hasymm : ∀ a ∈ contenders, ∀ b ∈ contenders, a.Prefers b → ¬ b.Prefers a := by
    intro a ha b hb hab hba
    rw [h.prefers_iff ha hb] at hab
    rw [h.prefers_iff hb ha] at hba
    exact OrientedCmp.not_lt_of_lt hab hba
  refine ⟨fun a ha b hb => h.prefers_iff ha hb, hasymm, ?_, ?_, ?_⟩
  · intro a ha b hb c hc hab hbc
    rw [h.prefers_iff ha hb] at hab
    rw [h.prefers_iff hb hc] at hbc
    rw [h.prefers_iff ha hc]
    exact TransCmp.lt_trans hab hbc
  · intro a ha b hb hties
    have hswap : forkOrder b a = (forkOrder a b).swap := OrientedCmp.eq_swap
    rw [tied_iff] at hties
    rw [h.prefers_iff ha hb, h.prefers_iff hb ha, hswap]
    cases horder : forkOrder a b with
    | lt => exact .inl ⟨rfl, by simp⟩
    | eq => exact absurd horder hties
    | gt => exact .inr ⟨rfl, by simp⟩
  · intro noTies start start' offers offers' pools pools' hmem same
    have hmem' : ∀ a ∈ start' :: offers', a ∈ contenders := fun a ha => hmem a ((same a).mpr ha)
    have hunique : Preference.settle forkOrder start offers
        = Preference.settle forkOrder start' offers' := by
      refine Preference.settle_unique same ?_
      intro a ha b hb htie
      by_contra hne
      exact noTies a (hmem a ha) b (hmem b hb) hne (tied_iff.mpr htie)
    obtain ⟨_, hleft⟩ := h.receive_all (fun b hb => hmem b (List.mem_cons_of_mem _ hb))
      (hmem start List.mem_cons_self) pools
    obtain ⟨_, hright⟩ := h.receive_all (fun b hb => hmem' b (List.mem_cons_of_mem _ hb))
      (hmem' start' List.mem_cons_self) pools'
    rw [hleft, hright, hunique]
    rfl

end Ledger

end Iuna

/-! ## Branches -/

namespace Iuna.Toy

attribute [local instance] crypto

open Ledger

/-- A block that is named by the path to it. -/
def pathBlock (path : Str) : Block :=
  { genesis.tip with height := path.length, hash := path, prevHash := path.dropLast }

lemma pathBlocks_ne_nil (path : Str) : path.inits.map pathBlock ≠ [] :=
  List.ne_nil_of_length_pos (by rw [List.length_map, List.length_inits]; omega)

/-- The chain of the blocks on a path. -/
def pathLedger (path : Str) (checkpoint : Option FinalityCheckpoint) : Ledger :=
  { genesis with
    chain := path.inits.map pathBlock
    chainNonempty := pathBlocks_ne_nil path
    historyPruned := false
    objectiveFinalityCheckpoint := checkpoint }

lemma pathLedger_getElem (path : Str) (checkpoint : Option FinalityCheckpoint) (i : ℕ)
    (hi : i < (pathLedger path checkpoint).chain.length) :
    (pathLedger path checkpoint).chain[i] = pathBlock (path.take i) := by
  simp [pathLedger]

lemma pathLedger_length (path : Str) (checkpoint : Option FinalityCheckpoint) :
    (pathLedger path checkpoint).chain.length = path.length + 1 := by
  simp [pathLedger]

lemma pathLedger_linked (path : Str) (checkpoint : Option FinalityCheckpoint) :
    (pathLedger path checkpoint).Linked where
  height i hi := by
    have hlength := pathLedger_length path checkpoint
    rw [pathLedger_getElem]
    change (path.take i).length = i
    rw [List.length_take]
    omega
  prevHash i hi := by
    have hlength := pathLedger_length path checkpoint
    rw [pathLedger_getElem, pathLedger_getElem]
    change (path.take (i + 1)).dropLast = path.take i
    rw [List.dropLast_eq_take, List.length_take, List.take_take]
    congr 1
    omega

lemma pathLedger_height (path : Str) (checkpoint : Option FinalityCheckpoint) :
    (pathLedger path checkpoint).height = path.length := by
  have hlength := (pathLedger_linked path checkpoint).length
  rw [pathLedger_length] at hlength
  omega

lemma pathLedger_tip (path : Str) (checkpoint : Option FinalityCheckpoint) :
    (pathLedger path checkpoint).tip = pathBlock path := by
  have hlength := pathLedger_length path checkpoint
  rw [tip_eq_getElem, List.get_eq_getElem, pathLedger_getElem]
  congr 1
  exact List.take_of_length_le (by dsimp only; omega)

lemma pathLedger_genesisHash (path : Str) (checkpoint : Option FinalityCheckpoint) :
    (pathLedger path checkpoint).genesisHash = [] := by
  have hfirst := pathLedger_getElem path checkpoint 0 (by rw [pathLedger_length]; omega)
  unfold Ledger.genesisHash Ledger.genesis
  rw [List.head_eq_getElem, hfirst]
  rfl

lemma pathLedger_hashBinds (path path' : Str) (checkpoint checkpoint' : Option FinalityCheckpoint) :
    HashBinds (pathLedger path checkpoint) (pathLedger path' checkpoint') := by
  intro x hx y hy hash
  obtain ⟨first, -, rfl⟩ := List.mem_map.mp hx
  obtain ⟨second, -, rfl⟩ := List.mem_map.mp hy
  obtain rfl : first = second := hash
  exact ⟨rfl, rfl⟩

/-- The trunk of the branches below: its last block is the last one before objective finality. -/
def trunk : Str := repeatChar 't' 999

lemma trunk_length : trunk.length = 999 := List.length_replicate ..

lemma take_trunk (path : Str) : (trunk ++ path).take 999 = trunk :=
  List.take_left' trunk_length

/-- A branch of one block, a longer one, and one with a finality checkpoint. -/
def branchEnds : List (Str × Option FinalityCheckpoint) :=
  [(str "a", none), (str "bb", none), (str "c", some ⟨1000, str "c"⟩)]

/-- The chain on the trunk and a branch. -/
def branch (branchEnd : Str × Option FinalityCheckpoint) : Ledger :=
  pathLedger (trunk ++ branchEnd.1) branchEnd.2

lemma branches_contenders : Contenders (branchEnds.map branch) := by
  constructor
  · intro a ha
    obtain ⟨first, -, rfl⟩ := List.mem_map.mp ha
    exact pathLedger_linked _ _
  · intro a ha b hb
    obtain ⟨first, -, rfl⟩ := List.mem_map.mp ha
    obtain ⟨second, -, rfl⟩ := List.mem_map.mp hb
    rw [branch, branch, pathLedger_genesisHash, pathLedger_genesisHash]
  · intro a ha b hb hash
    obtain ⟨first, hfirst, rfl⟩ := List.mem_map.mp ha
    obtain ⟨second, hsecond, rfl⟩ := List.mem_map.mp hb
    simp only [branch, pathLedger_tip] at hash
    have hpath : trunk ++ first.1 = trunk ++ second.1 := hash
    have hends : ∀ first ∈ branchEnds, ∀ second ∈ branchEnds, first.1 = second.1 →
        first = second := by decide
    rw [hends first hfirst second hsecond (List.append_cancel_left hpath)]
  · intro a ha b hb _ height found
    obtain ⟨first, -, rfl⟩ := List.mem_map.mp ha
    obtain ⟨second, -, rfl⟩ := List.mem_map.mp hb
    have hlong (branchEnd : Str × Option FinalityCheckpoint) :
        999 < (pathLedger (trunk ++ branchEnd.1) branchEnd.2).chain.length := by
      rw [pathLedger_length, List.length_append, trunk_length]
      omega
    have hle := (pathLedger_linked _ _).le_forkPoint (pathLedger_linked _ _) found (hlong first)
      (hlong second) (by simp only [pathLedger_getElem, take_trunk])
    exact Nat.succ_le_succ hle
  · intro a ha b hb
    obtain ⟨first, -, rfl⟩ := List.mem_map.mp ha
    obtain ⟨second, -, rfl⟩ := List.mem_map.mp hb
    exact pathLedger_hashBinds _ _ _ _

lemma branches_apart {first second : Str × Option FinalityCheckpoint} (hfirst : first ∈ branchEnds)
    (hsecond : second ∈ branchEnds) (tied : (branch first).Tied (branch second)) :
    first = second := by
  have hheight := tied.height
  rw [branch, branch, pathLedger_height, pathLedger_height, List.length_append,
    List.length_append, Nat.add_left_cancel_iff] at hheight
  have hcheckpoint : first.2 = second.2 := tied.checkpoint
  have hends : ∀ first ∈ branchEnds, ∀ second ∈ branchEnds, first.1.length = second.1.length →
      first.2 = second.2 → first = second := by decide
  exact hends first hfirst second hsecond hheight hcheckpoint

/-- Two nodes that see the three branches in different orders, from different starts, one of them
twice. -/
theorem fork_choice_converges_branches :
    ([branch (str "bb", none), branch (str "c", some ⟨1000, str "c"⟩)].foldl receive
        ((branch (str "a", none)).withPools .empty)).chain
      = ([branch (str "a", none), branch (str "bb", none), branch (str "a", none)].foldl receive
          ((branch (str "c", some ⟨1000, str "c"⟩)).withPools genesis.toPools)).chain := by
  refine (fork_choice_converges branches_contenders).2.2.2.2 ?_ (branch (str "a", none))
    (branch (str "c", some ⟨1000, str "c"⟩)) _ _ .empty genesis.toPools ?_ ?_
  · intro a ha b hb hne tied
    obtain ⟨first, hfirst, rfl⟩ := List.mem_map.mp ha
    obtain ⟨second, hsecond, rfl⟩ := List.mem_map.mp hb
    exact hne (congrArg branch (branches_apart hfirst hsecond tied))
  · exact fun a ha => ha
  · intro a
    generalize branch (str "a", none) = first, branch (str "bb", none) = second,
      branch (str "c", some ⟨1000, str "c"⟩) = third
    simp only [List.mem_cons, List.not_mem_nil, or_false]
    tauto

end Iuna.Toy
