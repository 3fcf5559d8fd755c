import Iuna.Adapters.Join
import Iuna.Library.Runs

/-!
# The paging of a join

The paging loop checks the height of the first block of a page only, and ends by the height of the
last one.  If the pages that it takes have consecutive heights up to the announced one, every round
raises the last height, the loop ends, and what it returns has the heights from zero on, so that
the segment ends are compared with the blocks of their heights (`join_paging`).  Otherwise a page
may lead back to the height it started from.
-/

namespace Iuna

/-! ## Consecutive heights -/

/-- The heights of a page follow one another. -/
def ConsecutiveBlocks (page : List Block) : Prop :=
  ∃ first, page.map Block.height = List.range' first page.length

/-- The blocks have the heights from zero on. -/
def HeightsFromZero (blocks : List Block) : Prop :=
  blocks ≠ [] ∧ blocks.map Block.height = List.range blocks.length

/-- A summary names the block at its height. -/
def ChainSegmentSummary.Matches (summary : ChainSegmentSummary) (blocks : List Block) : Prop :=
  ∃ block, blocks[summary.endHeight]? = some block ∧ block.hash = summary.endBlockHash

lemma ChainSegmentSummary.Matches.append {summary : ChainSegmentSummary} {blocks : List Block}
    (h : summary.Matches blocks) (page : List Block) : summary.Matches (blocks ++ page) := by
  obtain ⟨block, hblock, hhash⟩ := h
  obtain ⟨hreached, -⟩ := List.getElem?_eq_some_iff.mp hblock
  exact ⟨block, (List.getElem?_append_left hreached).trans hblock, hhash⟩

lemma lastHeight_eq {paging : Paging} (heights : HeightsFromZero paging.blocks) :
    paging.lastHeight + 1 = paging.blocks.length := by
  obtain ⟨hnonempty, hheights⟩ := heights
  have hpos : 0 < paging.blocks.length := List.length_pos_iff.mpr hnonempty
  have hlast : paging.blocks.getLast?.map Block.height = some (paging.blocks.length - 1) := by
    rw [← List.getLast?_map, hheights, List.getLast?_range, if_neg (by omega)]
  rw [Paging.lastHeight, hlast, Option.getD_some]
  omega

/-- A page that starts behind the last block continues the heights. -/
lemma HeightsFromZero.append {blocks page : List Block} {first : Block} {rest : List Block}
    (heights : HeightsFromZero blocks) (hpage : page = first :: rest)
    (consecutive : ConsecutiveBlocks page) (hfirst : first.height = blocks.length) :
    HeightsFromZero (blocks ++ page) := by
  obtain ⟨start, hstart⟩ := consecutive
  subst hpage
  rw [List.map_cons, List.length_cons, List.range'_succ, List.cons.injEq] at hstart
  have hrange : (first :: rest).map Block.height
      = List.range' blocks.length (first :: rest).length := by
    rw [List.map_cons, List.length_cons, List.range'_succ, hstart.2, ← hstart.1, hfirst]
  refine ⟨by simp, ?_⟩
  rw [List.map_append, heights.2, hrange, List.length_append, List.range_eq_range',
    List.range_eq_range', ← List.range'_append_1, Nat.zero_add]

/-! ## Errors -/

lemma bailIf_ne_indexOutOfRange {condition : Prop} [Decidable condition] {message : String} :
    (Outcome.bailIf condition (.failed message) : Except JoinError Unit)
      ≠ .error .indexOutOfRange := by
  unfold Outcome.bailIf
  split
  · exact nofun
  · exact nofun

/-! ## Segments -/

/-- What the check of the segments has established: those checked match, and the next one, if
there is one, ends beyond the blocks. -/
structure SegmentsChecked (summaries : List ChainSegmentSummary) (paging : Paging) : Prop where
  matched : ∀ summary ∈ summaries.take paging.checkedSegments, summary.Matches paging.blocks
  next : ∀ summary, summaries[paging.checkedSegments]? = some summary →
    paging.blocks.length ≤ summary.endHeight

lemma checkSegments_ne_indexOutOfRange (blocks : List Block) (summaries : List ChainSegmentSummary)
    (checkedSegments : ℕ) :
    checkSegments blocks summaries checkedSegments ≠ .error .indexOutOfRange := by
  induction summaries generalizing checkedSegments with
  | nil => exact nofun
  | cons summary summaries ih =>
    rw [checkSegments]
    split
    · exact nofun
    · rename_i hreached
      rw [List.getElem?_eq_getElem (not_le.mp hreached)]
      intro h
      rcases Outcome.error_of_bind h with hhash | ⟨_, -, h⟩
      · exact bailIf_ne_indexOutOfRange hhash
      · exact ih (checkedSegments + 1) h

lemma checkSegments_ok {blocks : List Block} {summaries : List ChainSegmentSummary}
    {checkedSegments checked : ℕ}
    (h : checkSegments blocks summaries checkedSegments = .ok checked) :
    checkedSegments ≤ checked
    ∧ (∀ summary ∈ summaries.take (checked - checkedSegments), summary.Matches blocks)
    ∧ ∀ summary, summaries[checked - checkedSegments]? = some summary →
      blocks.length ≤ summary.endHeight := by
  induction summaries generalizing checkedSegments with
  | nil =>
    obtain rfl := Except.ok.inj h
    simp
  | cons summary summaries ih =>
    rw [checkSegments] at h
    split at h
    · rename_i hbeyond
      obtain rfl := Except.ok.inj h
      simpa using hbeyond
    · rename_i hreached
      cases hblock : blocks[summary.endHeight]? with
      | none => simp [hblock] at h
      | some block =>
        rw [hblock] at h
        simp only [Outcome.bind_eq_ok, Outcome.bailIf_eq_ok, not_not] at h
        obtain ⟨_, hhash, h⟩ := h
        obtain ⟨hle, hmatched, hnext⟩ := ih h
        have hshift : checked - checkedSegments = checked - (checkedSegments + 1) + 1 := by omega
        rw [hshift]
        refine ⟨by omega, ?_, ?_⟩
        · rw [List.take_succ_cons, List.forall_mem_cons]
          exact ⟨⟨block, hblock, hhash⟩, hmatched⟩
        · rw [List.getElem?_cons_succ]
          exact hnext

/-- A check from where the last one stopped. -/
lemma SegmentsChecked.check {summaries : List ChainSegmentSummary} {paging : Paging}
    (segments : SegmentsChecked summaries paging) (page : List Block) {checked answered : ℕ}
    (h : checkSegments (paging.blocks ++ page) (summaries.drop paging.checkedSegments)
      paging.checkedSegments = .ok checked) :
    SegmentsChecked summaries
      { blocks := paging.blocks ++ page, checkedSegments := checked, answered := answered } := by
  obtain ⟨hle, hmatched, hnext⟩ := checkSegments_ok h
  have hsplit : summaries.take checked = summaries.take paging.checkedSegments
      ++ (summaries.drop paging.checkedSegments).take (checked - paging.checkedSegments) := by
    rw [← List.take_add, Nat.add_sub_cancel' hle]
  refine ⟨?_, ?_⟩
  · dsimp only
    rw [hsplit]
    intro summary hsummary
    rcases List.mem_append.mp hsummary with hold | hnew
    · exact (segments.matched summary hold).append page
    · exact hmatched summary hnew
  · intro summary hsummary
    refine hnext summary ?_
    rw [List.getElem?_drop, Nat.add_sub_cancel' hle]
    exact hsummary

/-- The summaries of an accepted bootstrap end at or below its height, each at its own end. -/
lemma validateBootstrapGenesis_segments {expectedProfileId : Str} {bootstrap : ChainBootstrap}
    (accepted : validateBootstrapGenesis expectedProfileId bootstrap = .ok ())
    {segmentId : ℕ} {summary : ChainSegmentSummary}
    (hsummary : bootstrap.segmentSummaries[segmentId]? = some summary) :
    0 < summary.endHeight ∧ summary.endHeight ≤ bootstrap.height := by
  simp only [validateBootstrapGenesis, Outcome.bind_eq_ok] at accepted
  obtain ⟨_, -, _, -, accepted⟩ := accepted
  obtain ⟨hlt, hget⟩ := List.getElem?_eq_some_iff.mp hsummary
  rw [if_neg (List.ne_nil_of_length_pos (by omega))] at accepted
  simp only [Outcome.bind_eq_ok, Outcome.bailIf_eq_ok, not_not] at accepted
  obtain ⟨_, hlength, hvalid⟩ := accepted
  have hmem : (summary, segmentId) ∈ bootstrap.segmentSummaries.zipIdx :=
    List.mk_mem_zipIdx_iff_getElem?.mpr hsummary
  have hsummaryValid : summary.isValid segmentId = true := by
    by_contra hinvalid
    exact hvalid (List.any_eq_true.mpr ⟨_, hmem, by simpa using hinvalid⟩)
  simp only [ChainSegmentSummary.isValid, decide_eq_true_eq] at hsummaryValid
  have hend := hsummaryValid.2.1
  unfold completedSegments at hlength
  by_cases hfull : bootstrap.height % chainSegmentBlocks = chainSegmentBlocks - 1
  · rw [if_pos hfull] at hlength
    unfold chainSegmentBlocks at hlength hend hfull
    omega
  · rw [if_neg hfull] at hlength
    unfold chainSegmentBlocks at hlength hend
    omega

/-! ## Rounds -/

lemma readBlocksWithin_ne_indexOutOfRange (answers : Answers) (tries answered : ℕ) :
    readBlocksWithin answers tries answered ≠ .error .indexOutOfRange := by
  induction tries generalizing answered with
  | zero => exact nofun
  | succ tries ih =>
    rw [readBlocksWithin]
    split
    · exact nofun
    · exact nofun
    · split
      · exact ih _
      · exact nofun

namespace Paging

/-- What holds at the head of the loop. -/
structure Sound (bootstrap : ChainBootstrap) (paging : Paging) : Prop where
  heights : HeightsFromZero paging.blocks
  announced : paging.blocks.length ≤ bootstrap.height + 1
  segments : SegmentsChecked bootstrap.segmentSummaries paging

variable {bootstrap : ChainBootstrap} {answers : Answers} {paging paging' : Paging}
  {page : List Block}

lemma start_sound {expectedProfileId : Str} (answered : ℕ)
    (accepted : validateBootstrapGenesis expectedProfileId bootstrap = .ok ())
    (genesis : bootstrap.genesisBlock.height = 0) : (start bootstrap answered).Sound bootstrap where
  heights := by
    refine ⟨by simp [start], ?_⟩
    simp [start, genesis]
  announced := by simp [start]
  segments := by
    refine ⟨by simp [start], ?_⟩
    intro summary hsummary
    have hend := validateBootstrapGenesis_segments accepted hsummary
    simp only [start, List.length_singleton]
    omega

/-- What an accepted page is: it continues from the next height on. -/
lemma round_ok (h : paging.round bootstrap answers = .ok (page, paging')) :
    (∃ first rest, page = first :: rest ∧ first.height = paging.lastHeight + 1)
    ∧ ∃ checkedSegments answered, checkSegments (paging.blocks ++ page)
        (bootstrap.segmentSummaries.drop paging.checkedSegments) paging.checkedSegments
          = .ok checkedSegments
      ∧ paging' = { blocks := paging.blocks ++ page, checkedSegments := checkedSegments,
                    answered := answered } := by
  simp only [round, Outcome.bind_eq_ok] at h
  obtain ⟨⟨received, answered⟩, -, h⟩ := h
  cases received with
  | nil => cases h
  | cons first rest =>
    simp only [Outcome.bind_eq_ok, Outcome.bailIf_eq_ok, not_not] at h
    obtain ⟨_, hfirst, checkedSegments, hchecked, h⟩ := h
    obtain ⟨rfl, rfl⟩ := Prod.mk.inj (Except.ok.inj h)
    exact ⟨⟨first, rest, rfl, hfirst⟩, checkedSegments, answered, hchecked, rfl⟩

lemma round_ne_indexOutOfRange : paging.round bootstrap answers ≠ .error .indexOutOfRange := by
  intro h
  simp only [round] at h
  rcases Outcome.error_of_bind h with hread | ⟨⟨received, answered⟩, -, h⟩
  · exact readBlocksWithin_ne_indexOutOfRange _ _ _ hread
  · cases received with
    | nil => cases h
    | cons first rest =>
      rcases Outcome.error_of_bind h with hfirst | ⟨_, -, h⟩
      · exact bailIf_ne_indexOutOfRange hfirst
      · rcases Outcome.error_of_bind h with hchecked | ⟨_, -, h⟩
        · exact checkSegments_ne_indexOutOfRange _ _ _ hchecked
        · cases h

/-- A round of the loop, with the page that it accepts. -/
def PageStep (bootstrap : ChainBootstrap) (answers : Answers) (paging : Paging) (page : List Block)
    (paging' : Paging) : Prop :=
  paging.lastHeight < bootstrap.height ∧ paging.round bootstrap answers = .ok (page, paging')

/-- Every page that the loop takes from a state on has consecutive heights, up to the announced
one.  What the peer could send otherwise, and the pages that are refused, do not matter. -/
def Orderly (bootstrap : ChainBootstrap) (answers : Answers) (start : Paging) : Prop :=
  ∀ pages paging page paging', Runs.Run (PageStep bootstrap answers) start pages paging →
    PageStep bootstrap answers paging page paging' →
      ConsecutiveBlocks page ∧ ∀ block ∈ page, block.height ≤ bootstrap.height

lemma Orderly.taken (orderly : Orderly bootstrap answers paging)
    (step : PageStep bootstrap answers paging page paging') :
    ConsecutiveBlocks page ∧ ∀ block ∈ page, block.height ≤ bootstrap.height :=
  orderly [] paging page paging' (.nil paging) step

lemma Orderly.step (orderly : Orderly bootstrap answers paging)
    (step : PageStep bootstrap answers paging page paging') :
    Orderly bootstrap answers paging' :=
  fun pages last next last' run => orderly (page :: pages) last next last' (.cons step run)

/-- A round with an orderly page raises the last height and keeps what holds of the loop. -/
lemma Sound.step (sound : paging.Sound bootstrap) (orderly : Orderly bootstrap answers paging)
    (step : PageStep bootstrap answers paging page paging') :
    paging'.Sound bootstrap ∧ paging.lastHeight < paging'.lastHeight
      ∧ ∀ block ∈ page, block.height ≤ bootstrap.height := by
  obtain ⟨⟨first, rest, hpage, hfirst⟩, checkedSegments, answered, hchecked, rfl⟩ :=
    round_ok step.2
  obtain ⟨hconsecutive, hannounced⟩ := orderly.taken step
  have hlast := lastHeight_eq sound.heights
  have heights : HeightsFromZero (paging.blocks ++ page) :=
    sound.heights.append hpage hconsecutive (hfirst.trans hlast)
  have hpos : 0 < page.length := by simp [hpage]
  have hlength : (paging.blocks ++ page).length = paging.blocks.length + page.length :=
    List.length_append
  -- the last block of the page has the last of the heights
  have hbound : (paging.blocks ++ page).length ≤ bootstrap.height + 1 := by
    have hget : (page.getLast (List.ne_nil_of_length_pos hpos)).height
        = (paging.blocks ++ page).length - 1 := by
      have hmap : ((paging.blocks ++ page).map Block.height).getLast?
          = some ((paging.blocks ++ page).length - 1) := by
        rw [heights.2, List.getLast?_range, if_neg (by omega)]
      rw [List.getLast?_map, List.getLast?_append_of_ne_nil _ (List.ne_nil_of_length_pos hpos),
        List.getLast?_eq_getLast_of_ne_nil (List.ne_nil_of_length_pos hpos)] at hmap
      exact Option.some.inj hmap
    have hle := hannounced _ (List.getLast_mem (List.ne_nil_of_length_pos hpos))
    omega
  refine ⟨⟨heights, hbound, sound.segments.check page hchecked⟩, ?_, hannounced⟩
  have hraised : lastHeight {
      blocks := paging.blocks ++ page
      checkedSegments := checkedSegments
      answered := answered } + 1 = (paging.blocks ++ page).length := lastHeight_eq heights
  omega

/-- What is claimed of the paging loop from a state on. -/
structure PagesSoundly (bootstrap : ChainBootstrap) (answers : Answers) (start : Paging) : Prop where
  rises : ∀ pages paging page paging', Runs.Run (PageStep bootstrap answers) start pages paging →
    PageStep bootstrap answers paging page paging' →
      paging.lastHeight < paging'.lastHeight ∧ ∀ block ∈ page, block.height ≤ bootstrap.height
  ends : ∃ rounds ≤ bootstrap.height, (run bootstrap answers rounds start).isSome
  inRange : ∀ rounds, run bootstrap answers rounds start ≠ some (.error .indexOutOfRange)
  snapshot : ∀ rounds snapshot, run bootstrap answers rounds start = some (.ok snapshot) →
    snapshot.blocks.map Block.height = List.range (bootstrap.height + 1)
      ∧ ∀ summary ∈ bootstrap.segmentSummaries, ∃ block,
        snapshot.blocks[summary.endHeight]? = some block
          ∧ block.height = summary.endHeight ∧ block.hash = summary.endBlockHash

lemma Sound.ends (sound : paging.Sound bootstrap) (orderly : Orderly bootstrap answers paging)
    {rounds : ℕ} (enough : bootstrap.height ≤ paging.lastHeight + rounds) :
    (run bootstrap answers rounds paging).isSome := by
  induction rounds generalizing paging with
  | zero =>
    unfold run
    rw [if_pos (by omega)]
    rfl
  | succ rounds ih =>
    unfold run
    split
    · rfl
    · rename_i hbelow
      dsimp only
      cases hround : paging.round bootstrap answers with
      | error error => rfl
      | ok result =>
        obtain ⟨page, paging'⟩ := result
        have step : PageStep bootstrap answers paging page paging' := ⟨not_le.mp hbelow, hround⟩
        obtain ⟨sound', hraised, -⟩ := sound.step orderly step
        exact ih sound' (orderly.step step) (by omega)

lemma run_ne_indexOutOfRange (rounds : ℕ) (paging : Paging) :
    run bootstrap answers rounds paging ≠ some (.error .indexOutOfRange) := by
  have hfinish (paging : Paging) :
      some (paging.finish bootstrap) ≠ some (.error .indexOutOfRange) := by
    intro h
    rcases Outcome.error_of_bind (Option.some.inj h) with htip | ⟨_, -, h⟩
    · exact bailIf_ne_indexOutOfRange htip
    · cases h
  induction rounds generalizing paging with
  | zero =>
    unfold run
    split
    · exact hfinish paging
    · exact nofun
  | succ rounds ih =>
    unfold run
    split
    · exact hfinish paging
    · dsimp only
      cases hround : paging.round bootstrap answers with
      | error error =>
        intro h
        obtain rfl := Except.error.inj (Option.some.inj h)
        exact round_ne_indexOutOfRange hround
      | ok result => exact ih result.2

/-- A snapshot that is returned consists of the blocks that the loop has ended with. -/
lemma Sound.snapshot (sound : paging.Sound bootstrap) (orderly : Orderly bootstrap answers paging)
    {rounds : ℕ} {snapshot : ChainSnapshot}
    (h : run bootstrap answers rounds paging = some (.ok snapshot)) :
    ∃ last : Paging, last.Sound bootstrap ∧ bootstrap.height ≤ last.lastHeight
      ∧ snapshot.blocks = last.blocks := by
  have hfinish {paging : Paging} (hend : bootstrap.height ≤ paging.lastHeight)
      (sound : paging.Sound bootstrap)
      (h : some (paging.finish bootstrap) = some (.ok snapshot)) :
      ∃ last : Paging, last.Sound bootstrap ∧ bootstrap.height ≤ last.lastHeight
        ∧ snapshot.blocks = last.blocks := by
    rw [Option.some.injEq, finish, Outcome.bind_eq_ok] at h
    obtain ⟨_, -, h⟩ := h
    obtain rfl := Except.ok.inj h
    exact ⟨paging, sound, hend, rfl⟩
  induction rounds generalizing paging with
  | zero =>
    unfold run at h
    split at h
    · exact hfinish ‹_› sound h
    · cases h
  | succ rounds ih =>
    unfold run at h
    split at h
    · exact hfinish ‹_› sound h
    · rename_i hbelow
      dsimp only at h
      cases hround : paging.round bootstrap answers with
      | error error =>
        rw [hround] at h
        cases h
      | ok result =>
        rw [hround] at h
        have step : PageStep bootstrap answers paging result.1 result.2 :=
          ⟨not_le.mp hbelow, hround⟩
        exact ih (sound.step orderly step).1 (orderly.step step) h

/-- **The paging of a join.** After an accepted bootstrap whose genesis block has the height zero,
the loop pages soundly if the pages that it takes have consecutive heights up to the announced
one. -/
theorem join_paging {expectedProfileId : Str} {bootstrap : ChainBootstrap} {answers : Answers}
    (accepted : validateBootstrapGenesis expectedProfileId bootstrap = .ok ())
    (genesis : bootstrap.genesisBlock.height = 0) (answered : ℕ)
    (orderly : Orderly bootstrap answers (start bootstrap answered)) :
    PagesSoundly bootstrap answers (start bootstrap answered) := by
  have hstart := start_sound answered accepted genesis
  refine ⟨?_, ⟨bootstrap.height, le_rfl, ?_⟩, fun rounds => run_ne_indexOutOfRange rounds _, ?_⟩
  · intro pages paging page paging' run step
    obtain ⟨sound, horderly⟩ := run.invariant
      (fun paging => paging.Sound bootstrap ∧ Orderly bootstrap answers paging)
      (fun _ _ _ before step => ⟨(before.1.step before.2 step).1, before.2.step step⟩)
      ⟨hstart, orderly⟩
    exact (sound.step horderly step).2
  · exact hstart.ends orderly (Nat.le_add_left _ _)
  · intro rounds snapshot h
    obtain ⟨last, sound, hend, hblocks⟩ := hstart.snapshot orderly h
    have hlast := lastHeight_eq sound.heights
    have hannounced := sound.announced
    have hlength : last.blocks.length = bootstrap.height + 1 := by omega
    rw [hblocks]
    refine ⟨by rw [sound.heights.2, hlength], fun summary hsummary => ?_⟩
    obtain ⟨segmentId, hsegment, hget⟩ := List.mem_iff_getElem.mp hsummary
    have hget? : bootstrap.segmentSummaries[segmentId]? = some summary :=
      List.getElem?_eq_some_iff.mpr ⟨hsegment, hget⟩
    -- no summary ends beyond the blocks, so all of them have been checked
    have hall : bootstrap.segmentSummaries.length ≤ last.checkedSegments := by
      by_contra hunchecked
      have hnext := sound.segments.next _ (List.getElem?_eq_getElem (not_le.mp hunchecked))
      have hbelow := (validateBootstrapGenesis_segments accepted
        (List.getElem?_eq_getElem (not_le.mp hunchecked))).2
      omega
    have hmatches := sound.segments.matched summary
      (List.mem_take_iff_getElem.mpr ⟨segmentId, by omega, hget⟩)
    obtain ⟨block, hblock, hhash⟩ := hmatches
    refine ⟨block, hblock, ?_, hhash⟩
    have hheight := congrArg (·[summary.endHeight]?) sound.heights.2
    simp only [List.getElem?_map, hblock, Option.map_some] at hheight
    rw [eq_comm, List.getElem?_eq_some_iff] at hheight
    obtain ⟨_, hheight⟩ := hheight
    rw [List.getElem_range] at hheight
    exact hheight.symm

end Paging

namespace Toy

/-- A block of some height; the paging loop reads the height and the hash only. -/
def blockAt (height : ℕ) : Block where
  height := height
  prevHash := []
  timestampMs := 0
  miner := []
  rewardAddress := none
  rewardAddressSignature := none
  finalizerMode := .recovery
  finalizerRank := 0
  reward := 0
  vdfRounds := 1
  vdfOutput := []
  leaderProof := none
  burnBundleSection := .default
  transactions := []
  transactionsV2 := []
  hash := decimal height

/-- The bootstrap of a chain of two blocks, under another profile than that of the candidate. -/
def twoBlocks : ChainBootstrap where
  genesisAllocations := ∅
  vdfRounds := 1
  launchProfile := { LaunchProfile.default with profileId := str "iuna-testnet" }
  genesisBlock := blockAt 0
  height := 1
  tipHash := decimal 1
  segmentSummaries := []

lemma twoBlocks_accepted : validateBootstrapGenesis (str "iuna-testnet") twoBlocks = .ok () := by
  decide +kernel

/-- The peer sends the second block, and a page from the genesis block on behind it. -/
def behind : Answers := fun index =>
  some (.blocks (if index = 0 then [blockAt 1] else [blockAt 0, blockAt 7]))

lemma behind_round : (Paging.start twoBlocks 0).round twoBlocks behind = .ok ([blockAt 1], {
    blocks := [blockAt 0, blockAt 1]
    checkedSegments := 0
    answered := 1 }) := rfl

/-- The join of two blocks ends before the other page is read. -/
theorem join_twoBlocks : Paging.PagesSoundly twoBlocks behind (Paging.start twoBlocks 0) := by
  refine Paging.join_paging twoBlocks_accepted rfl 0 ?_
  rintro pages paging page paging' run ⟨hbelow, hround⟩
  cases run with
  | nil =>
    rw [behind_round, Except.ok.injEq, Prod.mk.injEq] at hround
    obtain ⟨rfl, -⟩ := hround
    exact ⟨⟨1, rfl⟩, by simp [blockAt, twoBlocks]⟩
  | cons step rest =>
    have hfirst := step.2
    rw [behind_round, Except.ok.injEq, Prod.mk.injEq] at hfirst
    obtain ⟨-, rfl⟩ := hfirst
    -- the announced height is reached, so that no further round is taken
    cases rest with
    | nil => exact absurd hbelow (by decide)
    | cons second _ => exact absurd second.1 (by decide)

/-- Pages of the second block and, behind it, the first one again. -/
def circling : Answers := fun _ => some (.blocks [blockAt 1, blockAt 0])

lemma circling_run (rounds : ℕ) (paging : Paging) (back : paging.lastHeight = 0) :
    Paging.run twoBlocks circling rounds paging = none := by
  induction rounds generalizing paging with
  | zero =>
    unfold Paging.run
    rw [if_neg (by simp [back, twoBlocks])]
  | succ rounds ih =>
    have hround : paging.round twoBlocks circling = .ok ([blockAt 1, blockAt 0], {
        blocks := paging.blocks ++ [blockAt 1, blockAt 0]
        checkedSegments := paging.checkedSegments
        answered := paging.answered + 1 }) := by
      have hdrop : twoBlocks.segmentSummaries.drop paging.checkedSegments = [] := List.drop_nil
      unfold Paging.round
      rw [back]
      dsimp only
      rw [hdrop]
      rfl
    unfold Paging.run
    rw [if_neg (by simp [back, twoBlocks])]
    dsimp only
    rw [hround]
    refine ih _ ?_
    simp [Paging.lastHeight, blockAt]

/-- From a peer that circles between the first two blocks, the loop never ends. -/
theorem join_never_ends : ∃ expectedProfileId bootstrap answers,
    validateBootstrapGenesis expectedProfileId bootstrap = .ok ()
      ∧ ¬ Paging.PagesSoundly bootstrap answers (Paging.start bootstrap 0) := by
  refine ⟨_, twoBlocks, circling, twoBlocks_accepted, fun sound => ?_⟩
  obtain ⟨rounds, -, hends⟩ := sound.ends
  rw [circling_run rounds _ rfl] at hends
  cases hends

end Toy

end Iuna
