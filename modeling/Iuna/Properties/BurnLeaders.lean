import Mathlib.Data.List.Chain
import Iuna.Domain.HistoryIndex
import Iuna.Library.Preserve
import Iuna.Properties.Obtained
import Iuna.Properties.Tickets

/-!
# Ranks of burn leaders

A ledger answers for a recent height from the draw that it retained when it applied the block.  The
draws are those of its own chain (`Indexed`), also where history has been pruned, restored or
replaced, so that the answer is what a replay of the complete chain from the genesis tickets gives
(`served_ranks_exact`).
-/

namespace Iuna

/-! ## Complete chains -/

/-- A chain from a genesis block: the heights count from zero, and every block names its parent. -/
structure WholeChain (history : List Block) : Prop where
  height : ∀ (index : ℕ) (block : Block), history[index]? = some block → block.height = index
  prevHash : ∀ (index : ℕ) (parent block : Block), history[index]? = some parent →
    history[index + 1]? = some block → block.prevHash = parent.hash

section Chains

variable {history other : List Block} {tip block : Block}

lemma WholeChain.length (whole : WholeChain history) (last : history.getLast? = some tip) :
    history.length = tip.height + 1 := by
  rw [List.getLast?_eq_getElem?] at last
  have hindex := whole.height _ _ last
  have hinside := (List.getElem?_eq_some_iff.mp last).choose
  omega

lemma WholeChain.getElem?_height (whole : WholeChain history) (mem : block ∈ history) :
    history[block.height]? = some block := by
  obtain ⟨index, hindex⟩ := List.mem_iff_getElem?.mp mem
  rw [whole.height index block hindex]
  exact hindex

lemma WholeChain.push (whole : WholeChain history) (last : history.getLast? = some tip)
    (height : block.height = tip.height + 1) (prevHash : block.prevHash = tip.hash) :
    WholeChain (history ++ [block]) := by
  have hlength := whole.length last
  constructor
  · intro index found hfound
    rcases Nat.lt_trichotomy index history.length with hold | rfl | hnew
    · rw [List.getElem?_append_left hold] at hfound
      exact whole.height index found hfound
    · rw [List.getElem?_concat_length] at hfound
      obtain rfl := Option.some.inj hfound
      omega
    · rw [List.getElem?_eq_none (by simp; omega)] at hfound
      cases hfound
  · intro index parent child hparent hchild
    rcases Nat.lt_trichotomy (index + 1) history.length with hold | hend | hnew
    · rw [List.getElem?_append_left hold] at hchild
      rw [List.getElem?_append_left (by omega)] at hparent
      exact whole.prevHash index parent child hparent hchild
    · rw [hend, List.getElem?_concat_length] at hchild
      rw [List.getElem?_append_left (by omega)] at hparent
      rw [List.getLast?_eq_getElem?, ← hend, Nat.add_sub_cancel, hparent] at last
      obtain rfl := Option.some.inj hchild
      obtain rfl := Option.some.inj last
      exact prevHash
    · rw [List.getElem?_eq_none (by simp; omega)] at hchild
      cases hchild

/-- Without collisions, the hash of the tip determines the chain. -/
lemma WholeChain.unique {known : Block → Prop}
    (collisionFree : ∀ a b, known a → known b → a.hash = b.hash → a = b)
    (whole : WholeChain history) (otherWhole : WholeChain other)
    (isKnown : ∀ block ∈ history, known block) (otherKnown : ∀ block ∈ other, known block)
    {otherTip : Block} (last : history.getLast? = some tip)
    (otherLast : other.getLast? = some otherTip) (hash : tip.hash = otherTip.hash) :
    history = other := by
  obtain rfl : tip = otherTip := collisionFree _ _ (isKnown _ (List.mem_of_getLast? last))
    (otherKnown _ (List.mem_of_getLast? otherLast)) hash
  have hlength := whole.length last
  have hsame : other.length = history.length := by rw [hlength, otherWhole.length otherLast]
  have hback : ∀ distance index, index + distance + 1 = history.length →
      history[index]? = other[index]? := by
    intro distance
    induction distance with
    | zero =>
      intro index hindex
      rw [List.getLast?_eq_getElem?, ← hindex] at last
      rw [List.getLast?_eq_getElem?, hsame, ← hindex] at otherLast
      exact last.trans otherLast.symm
    | succ distance ih =>
      intro index hindex
      have hnext := ih (index + 1) (by omega)
      obtain ⟨child, hchild⟩ : ∃ child, history[index + 1]? = some child :=
        ⟨_, List.getElem?_eq_getElem (by omega)⟩
      obtain ⟨parent, hparent⟩ : ∃ parent, history[index]? = some parent :=
        ⟨_, List.getElem?_eq_getElem (by omega)⟩
      obtain ⟨parent', hparent'⟩ : ∃ parent, other[index]? = some parent :=
        ⟨_, List.getElem?_eq_getElem (by omega)⟩
      have hhash := whole.prevHash index parent child hparent hchild
      have hhash' := otherWhole.prevHash index parent' child hparent' (hnext ▸ hchild)
      obtain rfl := collisionFree parent parent' (isKnown _ (List.mem_of_getElem? hparent))
        (otherKnown _ (List.mem_of_getElem? hparent')) (hhash.symm.trans hhash')
      exact hparent.trans hparent'.symm
  refine List.ext_getElem? fun index => ?_
  by_cases hinside : index < history.length
  · exact hback (history.length - 1 - index) index (by omega)
  · rw [List.getElem?_eq_none (by omega), List.getElem?_eq_none (by omega)]

end Chains

section Replay

variable [Crypto] {launchProfile : LaunchProfile} {height : ℕ} {history left : List Block}
  {tickets kept : List BurnTicket} {block : Block}

/-! ## The replay of the tickets -/

/-- A block at or above the height does not matter to the replay. -/
lemma replayTicketsBelow_append (above : height ≤ block.height)
    (h : replayTicketsBelow launchProfile height history tickets = .ok (kept, left)) :
    replayTicketsBelow launchProfile height (history ++ [block]) tickets
      = .ok (kept, left ++ [block]) := by
  fun_induction replayTicketsBelow launchProfile height history tickets with
  | case1 tickets =>
    obtain ⟨rfl, rfl⟩ := Prod.mk.inj (Except.ok.inj h)
    rfl
  | case2 parent tickets =>
    obtain ⟨rfl, rfl⟩ := Prod.mk.inj (Except.ok.inj h)
    rw [List.singleton_append, replayTicketsBelow, if_pos above]
    rfl
  | case3 parent next rest tickets hstop =>
    obtain ⟨rfl, rfl⟩ := Prod.mk.inj (Except.ok.inj h)
    rw [List.cons_append, List.cons_append, replayTicketsBelow, if_pos hstop]
    rfl
  | case4 parent next rest tickets hgo ih =>
    obtain ⟨applied, happlied, hrest⟩ := Outcome.bind_eq_ok.mp h
    rw [List.cons_append, List.cons_append, replayTicketsBelow, if_neg hgo]
    exact Outcome.bind_eq_ok.mpr ⟨applied, happlied, ih applied hrest⟩

/-- A chain below the height is replayed to its end, and so is the next block. -/
lemma replayTicketsBelow_push {parent : Block} {applied : List BurnTicket}
    (last : history.getLast? = some parent) (below : ∀ block ∈ history, block.height < height)
    (next : block.height = height)
    (h : replayTicketsBelow launchProfile height history tickets = .ok (kept, left))
    (happlied : applyHistoricalTicketBlock parent block launchProfile kept = .ok applied) :
    replayTicketsBelow launchProfile (height + 1) (history ++ [block]) tickets
      = .ok (applied, [block]) := by
  fun_induction replayTicketsBelow launchProfile height history tickets with
  | case1 tickets => cases last
  | case2 first tickets =>
    obtain ⟨rfl, rfl⟩ := Prod.mk.inj (Except.ok.inj h)
    obtain rfl := Option.some.inj last
    rw [List.singleton_append, replayTicketsBelow, if_neg (by omega)]
    exact Outcome.bind_eq_ok.mpr ⟨applied, happlied, rfl⟩
  | case3 first second rest tickets hstop =>
    have hbelow := below second (List.mem_cons_of_mem _ List.mem_cons_self)
    omega
  | case4 first second rest tickets hgo ih =>
    obtain ⟨middle, hmiddle, hrest⟩ := Outcome.bind_eq_ok.mp h
    rw [List.cons_append, List.cons_append, replayTicketsBelow, if_neg (by omega)]
    refine Outcome.bind_eq_ok.mpr ⟨middle, hmiddle, ?_⟩
    exact ih middle last (fun block hmem => below block (List.mem_cons_of_mem _ hmem)) hrest

/-- The filter of the eligible tickets may be applied before the ranking. -/
lemma rankedTickets_filter_eligible (parentRandomness : Str) (tickets : List BurnTicket) :
    rankedTicketsForParentRandomness parentRandomness height
        (tickets.filter fun ticket => ticketIsEligibleForHeight ticket height)
      = rankedTicketsForParentRandomness parentRandomness height tickets := by
  unfold rankedTicketsForParentRandomness
  rw [List.filter_filter]
  simp only [Bool.and_self]

end Replay

/-! ## The index of a ledger -/

namespace Ledger

open Mutate

variable {known : Block → Prop} {ledger ledger' : Ledger} {history : List Block} {block : Block}

/-- The complete chain of a ledger: the blocks that are resident belong to it, and so do those that
have been pruned. -/
structure CompleteChain (known : Block → Prop) (ledger : Ledger) (history : List Block) : Prop
    extends WholeChain history where
  isKnown : ∀ block ∈ history, known block
  genesis : history[0]? = some ledger.genesis
  tip : history.getLast? = some ledger.tip
  resident : ∀ block ∈ ledger.chain, block ∈ history
  contiguous : ledger.chain.tail.IsChain fun parent block => block.height = parent.height + 1
  unpruned : ledger.historyPruned = false → ledger.chain = history

lemma CompleteChain.residentBlock {height : ℕ} (complete : CompleteChain known ledger history)
    (found : ledger.residentBlockAtHeight height = some block) : history[height]? = some block := by
  have hmem : block ∈ ledger.chain ∧ block.height = height := by
    unfold residentBlockAtHeight at found
    split at found
    · rename_i hgenesis
      obtain rfl := Option.some.inj found
      exact ⟨List.head_mem _, hgenesis.symm⟩
    · simp only [Option.bind_eq_bind, Option.bind_eq_some_iff] at found
      obtain ⟨firstTail, -, offset, -, resident, hresident, hheight⟩ := found
      split at hheight
      · obtain rfl := Option.some.inj hheight
        exact ⟨List.mem_of_getElem? hresident, by assumption⟩
      · cases hheight
  rw [← hmem.2]
  exact complete.toWholeChain.getElem?_height (complete.resident block hmem.1)

lemma contiguous_push (contiguous : ledger.chain.tail.IsChain fun parent block =>
    block.height = parent.height + 1) (height : block.height = ledger.tip.height + 1) :
    (ledger.chain ++ [block]).tail.IsChain fun parent block => block.height = parent.height + 1 := by
  rw [List.tail_append_of_ne_nil ledger.chainNonempty, List.isChain_append]
  refine ⟨contiguous, List.IsChain.singleton _, ?_⟩
  intro parent hparent child hchild
  obtain rfl : block = child := by simpa using hchild
  obtain rfl : parent = ledger.tip := by
    rw [Option.mem_def, List.getLast?_tail] at hparent
    split at hparent
    · cases hparent
    · rw [List.getLast?_eq_some_getLast ledger.chainNonempty] at hparent
      exact (Option.some.inj hparent).symm
  exact height

lemma CompleteChain.push (complete : CompleteChain known ledger history) (isKnown : known block)
    (height : block.height = ledger.tip.height + 1) (prevHash : block.prevHash = ledger.tip.hash)
    (chain : ledger'.chain = ledger.chain ++ [block])
    (pruned : ledger'.historyPruned = ledger.historyPruned) :
    CompleteChain known ledger' (history ++ [block]) := by
  have hgenesis : ledger'.genesis = ledger.genesis := by
    unfold Ledger.genesis
    simp only [chain]
    exact List.head_append_of_ne_nil ledger.chainNonempty
  have htip : ledger'.tip = block := by simp [Ledger.tip, chain]
  refine ⟨complete.toWholeChain.push complete.tip height prevHash, ?_, ?_, ?_, ?_, ?_, ?_⟩
  · exact List.forall_mem_append.mpr ⟨complete.isKnown, by simpa using isKnown⟩
  · have hpositive := complete.toWholeChain.length complete.tip
    rw [hgenesis, List.getElem?_append_left (by omega)]
    exact complete.genesis
  · rw [htip, List.getLast?_concat]
  · rw [chain]
    refine List.forall_mem_append.mpr ⟨fun other hmem => ?_, by simp⟩
    exact List.mem_append_left _ (complete.resident other hmem)
  · rw [chain]
    exact contiguous_push complete.contiguous height
  · rw [chain, pruned]
    exact fun hflag => congrArg (· ++ [block]) (complete.unpruned hflag)

variable [Crypto]

/-- The tickets that a replay gives below a height. -/
def TicketsBelow (ledger : Ledger) (history : List Block) (height : ℕ)
    (tickets : List BurnTicket) : Prop :=
  ∃ start left,
    genesisTickets ledger.genesisAllocations ledger.genesis ledger.launchProfile = .ok start
    ∧ replayTicketsBelow ledger.launchProfile height history start = .ok (tickets, left)

/-- A retained draw is that of the complete chain. -/
structure DrawOf (ledger : Ledger) (history : List Block) (height : ℕ) (draw : ResidentTicketDraw) :
    Prop where
  positive : 0 < height
  parent : ∃ parent, history[height - 1]? = some parent
    ∧ draw.parentRandomness = drawParentRandomness parent height
  tickets : ∃ tickets, ledger.TicketsBelow history height tickets
    ∧ draw.eligibleTickets = tickets.filter fun ticket => ticketIsEligibleForHeight ticket height

/-- The heights for which a ledger retains the draw. -/
def Retains (ledger : Ledger) (height : ℕ) : Prop :=
  0 < height ∧ ledger.height < height + residentTicketDrawBlocks
    ∧ ledger.ticketDrawHorizon < saturatingAdd height residentTicketDrawBlocks

/-- The tickets and the retained draws are those of a complete chain. -/
structure Indexed (known : Block → Prop) (ledger : Ledger) (history : List Block) : Prop
    extends CompleteChain known ledger history where
  tickets : ledger.TicketsBelow history history.length ledger.tickets
  draws : ∀ (height : ℕ) (draw : ResidentTicketDraw),
    ledger.residentTicketDraws[height]? = some draw → ledger.DrawOf history height draw
  retained : ∀ (height : ℕ) (block : Block), history[height]? = some block →
    ledger.Retains height →
    ∃ draw, ledger.residentTicketDraws[height]? = some draw ∧ draw.blockHash = block.hash

/-- What the draws are made of does not change with the next block. -/
structure SameOrigin (ledger ledger' : Ledger) : Prop where
  genesisAllocations : ledger'.genesisAllocations = ledger.genesisAllocations
  launchProfile : ledger'.launchProfile = ledger.launchProfile
  genesis : ledger'.genesis = ledger.genesis

lemma TicketsBelow.congr {height : ℕ} {tickets : List BurnTicket} (origin : ledger.SameOrigin ledger')
    (below : ledger.TicketsBelow history height tickets) :
    ledger'.TicketsBelow history height tickets := by
  unfold TicketsBelow
  rw [origin.genesisAllocations, origin.launchProfile, origin.genesis]
  exact below

lemma DrawOf.congr {height : ℕ} {draw : ResidentTicketDraw} (origin : ledger.SameOrigin ledger')
    (h : ledger.DrawOf history height draw) : ledger'.DrawOf history height draw := by
  obtain ⟨tickets, hbelow, heligible⟩ := h.tickets
  exact ⟨h.positive, h.parent, tickets, hbelow.congr origin, heligible⟩

lemma TicketsBelow.append {height : ℕ} {tickets : List BurnTicket} (above : height ≤ block.height)
    (below : ledger.TicketsBelow history height tickets) :
    ledger.TicketsBelow (history ++ [block]) height tickets := by
  obtain ⟨start, left, hstart, hreplay⟩ := below
  exact ⟨start, left ++ [block], hstart, replayTicketsBelow_append above hreplay⟩

lemma DrawOf.append {height : ℕ} {draw : ResidentTicketDraw} (above : height ≤ block.height)
    (h : ledger.DrawOf history height draw) : ledger.DrawOf (history ++ [block]) height draw := by
  obtain ⟨parent, hparent, hrandomness⟩ := h.parent
  obtain ⟨tickets, hbelow, heligible⟩ := h.tickets
  have hinside := (List.getElem?_eq_some_iff.mp hparent).choose
  refine ⟨h.positive, ⟨parent, ?_, hrandomness⟩, tickets, hbelow.append above, heligible⟩
  rw [List.getElem?_append_left hinside]
  exact hparent

/-! ## A block -/

omit [Crypto] in
/-- The draws after a block. -/
lemma recordTicketDraw_getElem? (ledger : Ledger) (height retained : ℕ) (draw : ResidentTicketDraw) :
    (ledger.recordTicketDraw height (some draw)).residentTicketDraws[retained]?
      = if height - (residentTicketDrawBlocks - 1) ≤ retained then
          if height = retained then some draw else ledger.residentTicketDraws[retained]?
        else none := by
  simp only [recordTicketDraw]
  simp only [Std.ExtTreeMap.getElem?_filter', Std.ExtTreeMap.getElem?_insert, Nat.compare_eq_eq]
  generalize (if height = retained then some draw else ledger.residentTicketDraws[retained]?) = found
  by_cases hkept : height - (residentTicketDrawBlocks - 1) ≤ retained
  · simp only [hkept, decide_true, if_true]
    cases found <;> rfl
  · simp [hkept]

lemma recordBlock_residentTicketDraws (ledger : Ledger) (block : Block) (effects : BlockEffects)
    (context : CompactBlockContext) :
    (ledger.recordBlock block effects context).residentTicketDraws
      = (ledger.recordTicketDraw block.height (ledger.ticketDrawBefore block)).residentTicketDraws := by
  unfold recordBlock
  dsimp only
  obtain ⟨observations, hobservations⟩ := recordVdfRetargetObservation_eq _ block
  rw [hobservations]
  obtain ⟨windows, hwindows⟩ := updateMineDifficultyCacheAfterTip_eq _
  rw [hwindows]
  unfold recordTicketDraw
  cases ledger.certifiedParent block <;> cases ledger.ticketDrawBefore block <;> rfl

/-- The commit of the next block keeps the index. -/
lemma Indexed.recordBlock (indexed : Indexed known ledger history) (isKnown : known block)
    (height : block.height = ledger.tip.height + 1) (prevHash : block.prevHash = ledger.tip.hash)
    {effects : BlockEffects} (tickets : ledger.ticketsAfterBlock block = .ok effects.tickets)
    (context : CompactBlockContext) :
    Indexed known (ledger.recordBlock block effects context) (history ++ [block]) := by
  have hlength := indexed.toWholeChain.length indexed.tip
  have hdraws := recordBlock_residentTicketDraws ledger block effects context
  obtain ⟨_, _, _, _, hrecord⟩ := recordBlock_eq ledger block effects context
  have hchain : (ledger.recordBlock block effects context).chain = ledger.chain ++ [block] := by
    rw [hrecord]
    rfl
  have hpruned : (ledger.recordBlock block effects context).historyPruned = ledger.historyPruned := by
    rw [hrecord]
    rfl
  have hhorizon : (ledger.recordBlock block effects context).ticketDrawHorizon
      = ledger.ticketDrawHorizon := by
    rw [hrecord]
    rfl
  have htickets : (ledger.recordBlock block effects context).tickets = effects.tickets := by
    rw [hrecord]
  have hcomplete := indexed.toCompleteChain.push isKnown height prevHash hchain hpruned
  have origin : ledger.SameOrigin (ledger.recordBlock block effects context) := by
    refine ⟨by rw [hrecord]; rfl, by rw [hrecord]; rfl, ?_⟩
    have hpositive : 0 < history.length := by omega
    have hgenesis := hcomplete.genesis
    rw [List.getElem?_append_left hpositive, indexed.genesis] at hgenesis
    exact (Option.some.inj hgenesis).symm
  have habove : history.length = block.height := by omega
  have hdraw : ∀ draw, ledger.ticketDrawBefore block = some draw →
      (ledger.recordBlock block effects context).DrawOf (history ++ [block]) block.height draw
        ∧ draw.blockHash = block.hash := by
    intro draw hdraw
    unfold ticketDrawBefore at hdraw
    split at hdraw
    · cases hdraw
    · obtain rfl := Option.some.inj hdraw
      refine ⟨⟨by omega, ⟨ledger.tip, ?_, rfl⟩, ledger.tickets, ?_, rfl⟩, rfl⟩
      · have hlast := indexed.tip
        rw [List.getLast?_eq_getElem?] at hlast
        rw [List.getElem?_append_left (by omega), ← habove]
        exact hlast
      · rw [← habove]
        exact (indexed.tickets.congr origin).append habove.le
  refine ⟨hcomplete, ?_, ?_, ?_⟩
  · obtain ⟨start, left, hstart, hreplay⟩ := indexed.tickets
    refine ⟨start, [block], ?_, ?_⟩
    · rw [origin.genesisAllocations, origin.launchProfile, origin.genesis]
      exact hstart
    · rw [htickets, origin.launchProfile, List.length_append, List.length_singleton]
      refine replayTicketsBelow_push indexed.tip (fun other hmem => ?_) habove.symm hreplay tickets
      exact (List.getElem?_eq_some_iff.mp
        (indexed.toWholeChain.getElem?_height hmem)).choose
  · have hold : ∀ retained draw, ledger.residentTicketDraws[retained]? = some draw →
        (ledger.recordBlock block effects context).DrawOf (history ++ [block]) retained draw := by
      intro retained draw hfound
      have hdrawn := indexed.draws retained draw hfound
      obtain ⟨parent, hparent, -⟩ := hdrawn.parent
      have hinside := (List.getElem?_eq_some_iff.mp hparent).choose
      exact (hdrawn.congr origin).append (by omega)
    intro retained draw hfound
    rw [hdraws] at hfound
    cases hbefore : ledger.ticketDrawBefore block with
    | none =>
      rw [hbefore] at hfound
      exact hold retained draw hfound
    | some new =>
      rw [hbefore, recordTicketDraw_getElem?] at hfound
      split at hfound
      · split at hfound
        · rename_i hsame
          obtain rfl := Option.some.inj hfound
          exact hsame ▸ (hdraw _ hbefore).1
        · exact hold retained draw hfound
      · cases hfound
  · intro retained found hfound retains
    have htip : (ledger.recordBlock block effects context).height = block.height := by
      simp [Ledger.height, Ledger.tip, hchain]
    obtain ⟨hpositive, hrecent, hcaptured⟩ := retains
    rw [htip] at hrecent
    rw [hhorizon] at hcaptured
    have hold : retained ≠ block.height →
        ∃ draw, ledger.residentTicketDraws[retained]? = some draw
          ∧ draw.blockHash = found.hash := by
      intro hother
      have hinside : retained < history.length := by
        have hbound := (List.getElem?_eq_some_iff.mp hfound).choose
        rw [List.length_append, List.length_singleton] at hbound
        omega
      rw [List.getElem?_append_left hinside] at hfound
      refine indexed.retained retained found hfound ⟨hpositive, ?_, hcaptured⟩
      unfold Ledger.height
      omega
    have hlast : retained = block.height → found = block := by
      rintro rfl
      rw [← habove, List.getElem?_concat_length] at hfound
      exact (Option.some.inj hfound).symm
    rw [hdraws]
    cases hbefore : ledger.ticketDrawBefore block with
    | none =>
      refine hold ?_
      rintro rfl
      unfold ticketDrawBefore at hbefore
      split at hbefore
      · omega
      · cases hbefore
    | some new =>
      have hkept : block.height - (residentTicketDrawBlocks - 1) ≤ retained := by
        unfold residentTicketDrawBlocks at hrecent ⊢
        omega
      simp only [recordTicketDraw_getElem?, if_pos hkept]
      by_cases hsame : block.height = retained
      · rw [if_pos hsame]
        exact ⟨new, rfl, hlast hsame.symm ▸ (hdraw new hbefore).2⟩
      · rw [if_neg hsame]
        exact hold fun heq => hsame heq.symm

/-! ## The ledgers of a node -/

/-- A ledger that has the tickets and the draws of a complete chain. -/
def IndexedChain (known : Block → Prop) (ledger : Ledger) : Prop :=
  ∃ history, Indexed known ledger history

lemma Indexed.withPools (indexed : Indexed known ledger history) (pools : Pools) :
    Indexed known (ledger.withPools pools) history := by
  have origin : ledger.SameOrigin (ledger.withPools pools) := ⟨rfl, rfl, rfl⟩
  exact ⟨⟨indexed.toWholeChain, indexed.isKnown, indexed.genesis, indexed.tip, indexed.resident,
    indexed.contiguous, indexed.unpruned⟩, indexed.tickets,
    fun height draw hfound => (indexed.draws height draw hfound).congr origin, indexed.retained⟩

lemma Indexed.withVdfRounds (indexed : Indexed known ledger history) (vdfRounds : ℕ) :
    Indexed known { ledger with vdfRounds := vdfRounds } history := by
  have origin : ledger.SameOrigin { ledger with vdfRounds := vdfRounds } := ⟨rfl, rfl, rfl⟩
  exact ⟨⟨indexed.toWholeChain, indexed.isKnown, indexed.genesis, indexed.tip, indexed.resident,
    indexed.contiguous, indexed.unpruned⟩, indexed.tickets,
    fun height draw hfound => (indexed.draws height draw hfound).congr origin, indexed.retained⟩

/-- The application of a block keeps the index, also when it fails. -/
lemma applyBlock_indexed (isKnown : known block) (verifyVdf : Bool) (nowMs : ℕ) :
    Preserves (IndexedChain known) (applyBlockWithVdfPolicy block verifyVdf nowMs) := by
  refine preserves_get_bind fun ledger indexed => ?_
  refine holds_lift_bind indexed fun isNew hprecheck => ?_
  cases isNew with
  | false => exact indexed
  | true =>
    have hchecked := precheck_eq_ok_true.mp hprecheck
    rw [if_pos rfl]
    refine holds_lift_bind indexed fun _ _ => ?_
    refine holds_lift_bind indexed fun effects hstage => ?_
    refine holds_lift_bind indexed fun context _ => ?_
    obtain ⟨_, _, _, _, staged⟩ := stageBlock_eq_ok.mp hstage
    have hrecorded : IndexedChain known (ledger.recordBlock block effects context) := by
      obtain ⟨history, hindexed⟩ := indexed
      exact ⟨_, hindexed.recordBlock isKnown hchecked.height hchecked.prevHash staged.tickets
        context⟩
    refine preserves_bind (preserves_set hrecorded) (fun _ => ?_) ledger indexed
    refine preserves_get_bind fun recorded hrecorded => ?_
    have hzoom : Preserves (IndexedChain known) (zoom Ledger.toPools withPools
        (recorded.refreshPools (block.transactions.map Transaction.signature))) :=
      preserves_zoom (I := fun _ => True) (fun _ _ => trivial) (fun _ _ => trivial)
        fun _ pools ⟨history, h⟩ _ => ⟨history, h.withPools pools⟩
    refine preserves_bind hzoom (fun _ => ?_) recorded hrecorded
    exact preserves_modify fun _ ⟨history, h⟩ => ⟨history, h.withVdfRounds _⟩

/-- A block of the store. -/
lemma Indexed.applyTrusted (indexed : Indexed known ledger history) (isKnown : known block)
    (height : block.height = ledger.tip.height + 1) (prevHash : block.prevHash = ledger.tip.hash)
    (replayed : ledger.applyTrustedBlockAt block = .ok ledger') :
    Indexed known ledger' (history ++ [block]) ∧ ledger'.tip = block
      ∧ ledger'.historyPruned = ledger.historyPruned := by
  simp only [applyTrustedBlockAt, Outcome.bind_eq_ok, Outcome.pure_eq_ok] at replayed
  obtain ⟨effects, hstage, context, -, rfl⟩ := replayed
  simp only [stageTrustedBlock, Outcome.bind_eq_ok, Outcome.pure_eq_ok] at hstage
  obtain ⟨_, -, _, -, _, -, tickets, htickets, _, -, rfl⟩ := hstage
  refine ⟨(indexed.recordBlock isKnown height prevHash htickets context).withVdfRounds _, ?_, ?_⟩
  all_goals
    obtain ⟨_, _, _, _, hrecord⟩ := recordBlock_eq ledger block _ context
    rw [hrecord]
  · simp [Ledger.tip, pushBlock]
  · rfl

lemma Indexed.retain (indexed : Indexed known ledger history) (recentLimit : ℕ) :
    Indexed known (ledger.retainRecentChainBlocks recentLimit) history := by
  have htip := @retainRecentChainBlocks_tip ledger recentLimit
  have hgenesis := @retainRecentChainBlocks_genesis ledger recentLimit
  unfold retainRecentChainBlocks at htip hgenesis ⊢
  dsimp only at htip hgenesis ⊢
  split at htip
  · rename_i hshort
    rw [if_pos hshort]
    exact indexed
  · rename_i hlong
    rw [if_neg hlong] at hgenesis ⊢
    have hheight : ∀ height, (Ledger.Retains { ledger with
        chain := ledger.genesis :: ledger.chain.drop (ledger.chain.length - max recentLimit 1)
        chainNonempty := by simp
        historyPruned := true } height) → ledger.Retains height := by
      rintro height ⟨hpositive, hrecent, hcaptured⟩
      unfold Ledger.height at hrecent
      rw [htip] at hrecent
      exact ⟨hpositive, hrecent, hcaptured⟩
    have origin : ledger.SameOrigin { ledger with
        chain := ledger.genesis :: ledger.chain.drop (ledger.chain.length - max recentLimit 1)
        chainNonempty := by simp
        historyPruned := true } := ⟨rfl, rfl, rfl⟩
    refine ⟨⟨indexed.toWholeChain, indexed.isKnown, ?_, ?_, ?_, ?_, ?_⟩, indexed.tickets,
      fun height draw hfound => (indexed.draws height draw hfound).congr origin,
      fun height block hfound retains => indexed.retained height block hfound (hheight height retains)⟩
    · exact indexed.genesis
    · rw [htip]
      exact indexed.tip
    · refine List.forall_mem_cons.mpr ⟨indexed.resident _ (List.head_mem _), ?_⟩
      exact fun block hmem => indexed.resident block (List.mem_of_mem_drop hmem)
    · obtain ⟨kept, hkept⟩ : ∃ kept, ledger.chain.length - max recentLimit 1 = kept + 1 :=
        ⟨ledger.chain.length - max recentLimit 1 - 1, by omega⟩
      rw [List.tail_cons, hkept, ← List.drop_tail]
      exact indexed.contiguous.drop kept
    · exact fun hflag => by cases hflag

/-- The ledger on a genesis block. -/
lemma initial_indexed (initial : Initial ledger) (isKnown : known ledger.genesis) (horizon : ℕ) :
    Indexed known { ledger with ticketDrawHorizon := horizon } ledger.chain := by
  have hlinked := initial_linked initial
  obtain ⟨_, genesis, _, _, _, tickets, _, _, -, -, -, htickets, rfl⟩ := initial_eq initial
  have hwhole : WholeChain [genesis] := by
    constructor
    · intro index block hfound
      obtain rfl : index = 0 := by
        have hinside := (List.getElem?_eq_some_iff.mp hfound).choose
        simpa using hinside
      obtain rfl := Option.some.inj hfound
      exact hlinked.height 0 (by simp [atGenesis])
    · intro index parent block _ hfound
      cases hfound
  refine ⟨⟨hwhole, ?_, rfl, rfl, fun _ h => h, .nil, fun _ => rfl⟩, ?_, ?_, ?_⟩
  · exact List.forall_mem_singleton.mpr isKnown
  · exact ⟨tickets, [genesis], htickets, rfl⟩
  · intro height draw hfound
    simp [atGenesis] at hfound
  · rintro height block hfound ⟨hpositive, -⟩
    have hinside := (List.getElem?_eq_some_iff.mp hfound).choose
    simp [atGenesis] at hinside
    omega

/-! ## Restored history -/

omit [Crypto] in
/-- The blocks above a height of a contiguous chain are contiguous. -/
lemma contiguous_filter {blocks : List Block} (height : ℕ)
    (contiguous : blocks.IsChain fun parent block => block.height = parent.height + 1) :
    (blocks.filter fun block => height < block.height).IsChain
      fun parent block => block.height = parent.height + 1 := by
  induction blocks with
  | nil => exact .nil
  | cons block rest ih =>
    obtain ⟨hnext, hrest⟩ := List.isChain_cons.mp contiguous
    by_cases habove : height < block.height
    · rw [List.filter_cons_of_pos (by simpa using habove), List.isChain_cons]
      refine ⟨fun next hmem => hnext next ?_, ih hrest⟩
      cases rest with
      | nil => exact hmem
      | cons second rest =>
        have hsecond := hnext second rfl
        rw [List.filter_cons_of_pos (by simp only [decide_eq_true_eq]; omega)] at hmem
        exact hmem
    · rw [List.filter_cons_of_neg (by simpa using habove)]
      exact ih hrest

/-- Resident blocks that are replayed in order onto a rebuilt copy. -/
lemma rebuild_indexed (whole : WholeChain history) {newer : List Block}
    (isKnown : ∀ block ∈ newer, known block) (mem : ∀ block ∈ newer, block ∈ history)
    (contiguous : newer.IsChain fun parent block => block.height = parent.height + 1)
    {complete rebuilt : Ledger} {other : List Block} (indexed : Indexed known complete other)
    (unpruned : complete.historyPruned = false)
    (start : ∀ first, newer.head? = some first → first.height = complete.tip.height + 1
      ∧ ∃ parent, history[complete.tip.height]? = some parent ∧ parent.hash = complete.tip.hash)
    (replayed : newer.foldlM applyTrustedBlockAt complete = .ok rebuilt) :
    ∃ left, Indexed known rebuilt left ∧ rebuilt.historyPruned = false := by
  induction newer generalizing complete other with
  | nil =>
    obtain rfl := Except.ok.inj replayed
    exact ⟨other, indexed, unpruned⟩
  | cons first rest ih =>
    obtain ⟨next, hfirst, hrest⟩ := Outcome.foldlM_cons_eq_ok.mp replayed
    rw [List.forall_mem_cons] at isKnown mem
    obtain ⟨hheight, parent, hparent, hhash⟩ := start first rfl
    have hfound := whole.getElem?_height mem.1
    have hprev := whole.prevHash _ parent first hparent (hheight ▸ hfound)
    obtain ⟨hindexed, htip, hflag⟩ := indexed.applyTrusted isKnown.1 hheight
      (hprev.trans hhash) hfirst
    obtain ⟨hnext, hchain⟩ := List.isChain_cons.mp contiguous
    refine ih isKnown.2 mem.2 hchain hindexed (hflag.trans unpruned) (fun second hsecond => ?_) hrest
    rw [htip]
    exact ⟨hnext second hsecond, first, hfound, rfl⟩

omit [Crypto] in
/-- A copy that the resident chain extends ends in a block of the complete chain. -/
lemma CompleteChain.restoredTip (complete : CompleteChain known ledger history) {restoredTip : Block}
    (extension : ledger.extendsRestoredTip restoredTip = true) {first : Block}
    (resident : first ∈ ledger.chain) (height : first.height = restoredTip.height + 1)
    (fits : first.height ≤ u64Max) :
    ∃ parent, history[restoredTip.height]? = some parent ∧ parent.hash = restoredTip.hash := by
  have hfirst := complete.toWholeChain.getElem?_height (complete.resident first resident)
  have hinside := (List.getElem?_eq_some_iff.mp hfirst).choose
  unfold extendsRestoredTip at extension
  split at extension
  · rename_i block hfound
    exact ⟨block, complete.residentBlock hfound, by simpa using extension⟩
  · cases hnext : ledger.residentBlockAtHeight (saturatingAdd restoredTip.height 1) with
    | none =>
      rw [hnext] at extension
      cases extension
    | some next =>
      rw [hnext, Option.any_some, decide_eq_true_eq] at extension
      have hfound := complete.residentBlock hnext
      have hheight : saturatingAdd restoredTip.height 1 = restoredTip.height + 1 :=
        Nat.min_eq_left (height ▸ fits)
      rw [hheight] at hfound
      obtain ⟨parent, hparent⟩ : ∃ parent, history[restoredTip.height]? = some parent :=
        ⟨_, List.getElem?_eq_getElem (by omega)⟩
      exact ⟨parent, hparent,
        (complete.prevHash _ parent next hparent hfound).symm.trans extension⟩

lemma Indexed.withChain (indexed : Indexed known ledger history) {chain : List Block}
    (same : chain = history) (nonempty : chain ≠ []) (context : CompactBlockContext) :
    Indexed known { ledger with
      chain := chain
      chainNonempty := nonempty
      compactBlockContext := context
      historyPruned := false } history := by
  subst same
  have hgenesis : chain.head nonempty = ledger.genesis := by
    have hhead := indexed.genesis
    rw [← List.head?_eq_getElem?, List.head?_eq_some_head nonempty] at hhead
    exact Option.some.inj hhead
  have htip : chain.getLast nonempty = ledger.tip := by
    have hlast := indexed.tip
    rw [List.getLast?_eq_some_getLast nonempty] at hlast
    exact Option.some.inj hlast
  have origin : ledger.SameOrigin { ledger with
      chain := chain
      chainNonempty := nonempty
      compactBlockContext := context
      historyPruned := false } := ⟨rfl, rfl, hgenesis⟩
  refine ⟨⟨indexed.toWholeChain, indexed.isKnown, ?_, ?_, fun _ h => h, ?_, fun _ => rfl⟩,
    indexed.tickets.congr origin, fun height draw hfound =>
      (indexed.draws height draw hfound).congr origin, ?_⟩
  · exact indexed.genesis.trans (congrArg some hgenesis.symm)
  · exact indexed.tip.trans (congrArg some htip.symm)
  · refine List.IsChain.tail (List.isChain_iff_getElem.mpr fun index hinside => ?_)
    rw [indexed.height _ _ (List.getElem?_eq_getElem hinside),
      indexed.height _ _ (List.getElem?_eq_getElem (Nat.lt_of_succ_lt hinside))]
  · rintro height block hfound ⟨hpositive, hrecent, hcaptured⟩
    refine indexed.retained height block hfound ⟨hpositive, ?_, hcaptured⟩
    unfold Ledger.height at hrecent ⊢
    rw [← htip]
    exact hrecent

/-- The blocks that a restoration replays onto the copy start right above its tip: the store holds
what has been pruned.  Heights are 64-bit numbers. -/
def ReplaysAbove (ledger complete : Ledger) : Prop :=
  ∀ first, (ledger.chain.filter fun block => complete.tip.height < block.height).head? = some first →
    first.height = complete.tip.height + 1 ∧ first.height ≤ u64Max

/-- Restored history is that of the ledger. -/
lemma Indexed.restorePrunedHistory
    (collisionFree : ∀ a b, known a → known b → a.hash = b.hash → a = b)
    (indexed : Indexed known ledger history) {complete : Ledger} {other : List Block}
    (copy : Indexed known complete other) (replays : ledger.ReplaysAbove complete) {restored : Bool}
    (h : ledger.restorePrunedHistory complete = .ok (restored, ledger')) :
    Indexed known ledger' history := by
  unfold Ledger.restorePrunedHistory at h
  split at h
  · obtain ⟨-, rfl⟩ := Prod.mk.inj (Except.ok.inj h)
    exact indexed
  · simp only [Outcome.bind_eq_ok, Outcome.bailIf_eq_ok] at h
    obtain ⟨_, hcopy, _, -, h⟩ := h
    split at h
    · obtain ⟨-, rfl⟩ := Prod.mk.inj (Except.ok.inj h)
      exact indexed
    · rename_i hextension
      obtain ⟨rebuilt, hreplayed, h⟩ := Outcome.bind_eq_ok.mp h
      split at h
      · obtain ⟨-, rfl⟩ := Prod.mk.inj (Except.ok.inj h)
        exact indexed
      · rename_i hhash
        obtain ⟨-, rfl⟩ := Prod.mk.inj (Except.ok.inj h)
        have hmem : ∀ block ∈ ledger.chain.filter (fun block => complete.tip.height < block.height),
            block ∈ history := fun block hmem => indexed.resident block (List.mem_of_mem_filter hmem)
        have hgenesis : ledger.chain = ledger.genesis :: ledger.chain.tail :=
          (List.cons_head_tail ledger.chainNonempty).symm
        have hcontiguous : (ledger.chain.filter fun block => complete.tip.height < block.height).IsChain
            fun parent block => block.height = parent.height + 1 := by
          have hzero := indexed.height 0 _ indexed.genesis
          rw [hgenesis, List.filter_cons_of_neg (by simp [hzero])]
          exact contiguous_filter _ indexed.contiguous
        obtain ⟨left, hrebuilt, hunpruned⟩ := rebuild_indexed indexed.toWholeChain
          (fun block hblock => indexed.isKnown block (hmem block hblock)) hmem hcontiguous copy
          (by simpa using hcopy) (fun first hfirst => ⟨(replays first hfirst).1,
            indexed.toCompleteChain.restoredTip (by simpa using hextension)
              (List.mem_of_mem_filter (List.mem_of_mem_head? hfirst)) (replays first hfirst).1
              (replays first hfirst).2⟩) hreplayed
        have hsame : left = history := hrebuilt.toWholeChain.unique collisionFree
          indexed.toWholeChain hrebuilt.isKnown indexed.isKnown hrebuilt.tip indexed.tip
          (not_not.mp hhash)
        exact indexed.withChain ((hrebuilt.unpruned hunpruned).trans hsame) rebuilt.chainNonempty _

/-! ## Runs -/

/-- The ledgers of a node that keeps a number of recent blocks where it prunes, and that restores
what it has pruned.  A reorganization adopts a ledger that was built from a genesis block in the
same way (`maintained_of_obtained`). -/
inductive Maintained (known : Block → Prop) (keep : ℕ) : Ledger → Prop
  | initial {ledger : Ledger} (initial : Initial ledger) (isKnown : known ledger.genesis)
      (horizon : ℕ) : Maintained known keep { ledger with ticketDrawHorizon := horizon }
  | applied {ledger : Ledger} (maintained : Maintained known keep ledger) (block : Block)
      (isKnown : known block) (verifyVdf : Bool) (nowMs : ℕ) :
      Maintained known keep (after (applyBlockWithVdfPolicy block verifyVdf nowMs) ledger)
  | replayed {ledger ledger' : Ledger} {block : Block} (maintained : Maintained known keep ledger)
      (isKnown : known block) (height : block.height = ledger.tip.height + 1)
      (prevHash : block.prevHash = ledger.tip.hash)
      (replayed : ledger.applyTrustedBlockAt block = .ok ledger') : Maintained known keep ledger'
  | poolsChanged {ledger : Ledger} (maintained : Maintained known keep ledger) (pools : Pools) :
      Maintained known keep (ledger.withPools pools)
  | historyPruned {ledger : Ledger} (maintained : Maintained known keep ledger) (recentLimit : ℕ)
      (keeps : keep ≤ recentLimit) :
      Maintained known keep (ledger.retainRecentChainBlocks recentLimit)
  | historyRestored {ledger complete ledger' : Ledger} {restored : Bool}
      (maintained : Maintained known keep ledger) (copy : Maintained known keep complete)
      (replays : ledger.ReplaysAbove complete)
      (result : ledger.restorePrunedHistory complete = .ok (restored, ledger')) :
      Maintained known keep ledger'

variable {keep : ℕ}

lemma maintained_of_initial (initial : Initial ledger) (isKnown : known ledger.genesis) :
    Maintained known keep ledger :=
  .initial initial isKnown ledger.ticketDrawHorizon

/-- The application of a block leaves the genesis block alone. -/
lemma applyBlock_genesis (ledger : Ledger) (block : Block) (verifyVdf : Bool) (nowMs : ℕ) :
    (after (applyBlockWithVdfPolicy block verifyVdf nowMs) ledger).genesis = ledger.genesis := by
  have hsame := applyBlock_after ledger block verifyVdf nowMs
  unfold Ledger.genesis
  rcases hsame with hsame | ⟨hpushed, -⟩
  · simp only [hsame]
  · simp only [hpushed, List.head_append_of_ne_nil ledger.chainNonempty]

lemma applyTrusted_genesis (replayed : ledger.applyTrustedBlockAt block = .ok ledger') :
    ledger'.genesis = ledger.genesis := by
  simp only [applyTrustedBlockAt, Outcome.bind_eq_ok, Outcome.pure_eq_ok] at replayed
  obtain ⟨effects, -, context, -, rfl⟩ := replayed
  obtain ⟨_, _, _, _, hrecord⟩ := recordBlock_eq ledger block effects context
  rw [hrecord]
  exact List.head_append_of_ne_nil ledger.chainNonempty

/-- The ledgers that come about by blocks, reorganizations and pages are maintained. -/
theorem maintained_of_obtained (obtained : Obtained known known keep ledger)
    (genesisKnown : known ledger.genesis) : Maintained known keep ledger := by
  induction obtained with
  | initial initial => exact maintained_of_initial initial genesisKnown
  | @applied before _ block isKnown verifyVdf nowMs ih =>
    rw [applyBlock_genesis] at genesisKnown
    exact (ih genesisKnown).applied block isKnown verifyVdf nowMs
  | restored _ isKnown height prevHash replayed ih =>
    rw [applyTrusted_genesis replayed] at genesisKnown
    exact (ih genesisKnown).replayed isKnown height prevHash replayed
  | poolsChanged _ pools ih => exact (ih genesisKnown).poolsChanged pools
  | historyPruned _ recentLimit keeps ih =>
    rw [retainRecentChainBlocks_genesis] at genesisKnown
    exact (ih genesisKnown).historyPruned recentLimit keeps

lemma Maintained.indexed (collisionFree : ∀ a b, known a → known b → a.hash = b.hash → a = b)
    (maintained : Maintained known keep ledger) : IndexedChain known ledger := by
  induction maintained with
  | initial initial isKnown horizon => exact ⟨_, initial_indexed initial isKnown horizon⟩
  | applied _ block isKnown verifyVdf nowMs ih => exact applyBlock_indexed isKnown verifyVdf nowMs _ ih
  | replayed _ isKnown height prevHash replayed ih =>
    obtain ⟨history, indexed⟩ := ih
    exact ⟨_, (indexed.applyTrusted isKnown height prevHash replayed).1⟩
  | poolsChanged _ pools ih =>
    obtain ⟨history, indexed⟩ := ih
    exact ⟨history, indexed.withPools pools⟩
  | historyPruned _ recentLimit _ ih =>
    obtain ⟨history, indexed⟩ := ih
    exact ⟨history, indexed.retain recentLimit⟩
  | historyRestored _ _ replays result ih ihCopy =>
    obtain ⟨history, indexed⟩ := ih
    obtain ⟨other, copy⟩ := ihCopy
    exact ⟨history, indexed.restorePrunedHistory collisionFree copy replays result⟩

/-- An answer from a retained draw is what the replay gives. -/
lemma Indexed.cached_eq_replayed (indexed : Indexed known ledger history) {height : ℕ}
    {blockHash : Str} {ranks : List BurnLeaderRank}
    (cached : ledger.cachedBurnLeaderRanks height blockHash = some ranks) :
    replayedBurnLeaderRanks ledger.genesisAllocations ledger.launchProfile history height
      = .ok ranks := by
  simp only [cachedBurnLeaderRanks, Option.bind_eq_bind, Option.bind_eq_some_iff] at cached
  obtain ⟨draw, hdraw, hranks⟩ := cached
  split at hranks
  · cases hranks
  · obtain rfl := Option.some.inj hranks
    have hdrawn := indexed.draws height draw hdraw
    obtain ⟨parent, hparent, hrandomness⟩ := hdrawn.parent
    obtain ⟨tickets, ⟨start, left, hstart, hreplay⟩, heligible⟩ := hdrawn.tickets
    have hindex : checkedSub height 1 = some (height - 1) := if_pos hdrawn.positive
    rw [heligible, rankedTickets_filter_eligible, hrandomness]
    simp only [replayedBurnLeaderRanks, Outcome.bind_eq_ok, orError]
    refine ⟨_, congrArg _ indexed.genesis, start, hstart, height - 1, congrArg _ hindex, parent,
      congrArg _ hparent, _, hreplay, rfl⟩

/-- **Served ranks are exact.** Whatever blocks were applied, pruned, restored or replaced, a ledger
has one complete chain; a resident height that it serves from the index gets the ranks that a replay
of that chain gives, and it serves every height that it retains. -/
theorem served_ranks_exact
    (collisionFree : ∀ a b, known a → known b → a.hash = b.hash → a = b)
    (maintained : Maintained known keep ledger) :
    ∃ history, CompleteChain known ledger history
      ∧ (∀ other, CompleteChain known ledger other → other = history)
      ∧ ∀ height block, ledger.residentBlockAtHeight height = some block →
        (∀ ranks, ledger.cachedBurnLeaderRanks height block.hash = some ranks →
          replayedBurnLeaderRanks ledger.genesisAllocations ledger.launchProfile history height
            = .ok ranks)
        ∧ (ledger.Retains height →
          ∃ ranks, ledger.cachedBurnLeaderRanks height block.hash = some ranks
            ∧ ledger.burnLeaderRanksForBlock height = .ok ranks) := by
  obtain ⟨history, indexed⟩ := maintained.indexed collisionFree
  refine ⟨history, indexed.toCompleteChain, fun other complete => ?_, fun height block hfound =>
    ⟨fun ranks => indexed.cached_eq_replayed, fun retains => ?_⟩⟩
  · exact complete.toWholeChain.unique collisionFree indexed.toWholeChain complete.isKnown
      indexed.isKnown complete.tip indexed.tip rfl
  · obtain ⟨draw, hdraw, hhash⟩ := indexed.retained height block
      (indexed.toCompleteChain.residentBlock hfound) retains
    have hcached : ∃ ranks, ledger.cachedBurnLeaderRanks height block.hash = some ranks := by
      simp [cachedBurnLeaderRanks, hdraw, hhash]
    obtain ⟨ranks, hranks⟩ := hcached
    refine ⟨ranks, hranks, ?_⟩
    unfold burnLeaderRanksForBlock
    rw [if_neg (by have := retains.1; omega), hfound, Option.bind_some, hranks]
    rfl

end Ledger

namespace Toy

open Mutate

attribute [local instance] crypto

/-- The genesis block and the next one. -/
def KnownBlock (candidate : Block) : Prop := candidate = genesis.genesis ∨ candidate = block

lemma knownBlock_collisionFree (a b : Block) (ha : KnownBlock a) (hb : KnownBlock b)
    (hash : a.hash = b.hash) : a = b := by
  rcases ha with ha | ha
  · rcases hb with hb | hb
    · exact ha.trans hb.symm
    · rw [ha, hb] at hash
      exact absurd hash blocks_hash_ne.1
  · rcases hb with hb | hb
    · rw [ha, hb] at hash
      exact absurd hash.symm blocks_hash_ne.1
    · exact ha.trans hb.symm

/-- The genesis ledger after the next block, which arrives at its own time. -/
def indexedLedger : Ledger :=
  after (Ledger.applyBlockWithVdfPolicy block true block.timestampMs) genesis

set_option maxRecDepth 10000 in
lemma indexedLedger_serves : indexedLedger.residentBlockAtHeight 1 = some block
    ∧ (indexedLedger.cachedBurnLeaderRanks 1 block.hash).isSome = true := by decide +kernel

lemma indexedLedger_maintained :
    Ledger.Maintained KnownBlock Ledger.residentChainBlocks indexedLedger :=
  (Ledger.maintained_of_initial genesis_initial (.inl rfl)).applied block (.inr rfl) true _

/-- The ranks after the next block, among them those that are served for it. -/
theorem indexedLedger_served_ranks_exact :
    (indexedLedger.residentBlockAtHeight 1 = some block
      ∧ (indexedLedger.cachedBurnLeaderRanks 1 block.hash).isSome = true)
    ∧ ∃ history, Ledger.CompleteChain KnownBlock indexedLedger history
      ∧ (∀ other, Ledger.CompleteChain KnownBlock indexedLedger other → other = history)
      ∧ ∀ height block, indexedLedger.residentBlockAtHeight height = some block →
        (∀ ranks, indexedLedger.cachedBurnLeaderRanks height block.hash = some ranks →
          replayedBurnLeaderRanks indexedLedger.genesisAllocations indexedLedger.launchProfile
            history height = .ok ranks)
        ∧ (indexedLedger.Retains height →
          ∃ ranks, indexedLedger.cachedBurnLeaderRanks height block.hash = some ranks
            ∧ indexedLedger.burnLeaderRanksForBlock height = .ok ranks) :=
  ⟨indexedLedger_serves,
    Ledger.served_ranks_exact knownBlock_collisionFree indexedLedger_maintained⟩

end Toy

end Iuna
