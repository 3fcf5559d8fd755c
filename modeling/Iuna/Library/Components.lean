import Mathlib

/-!
# Connected components by depth-first search

A search with a stack and a list of visited nodes, and the loop that starts it at every node that
no earlier search has visited.  With symmetric edges the searches find the connected components
(`components_spec`): each is closed under the edges and connected, and no node is found twice.
-/

namespace Components

variable {α : Type} [DecidableEq α] {neighbours : α → List α}

/-- Push the neighbours that have not been visited; the pair is the visited nodes and the stack. -/
def push (adjacent : List α) (state : List α × List α) : List α × List α :=
  adjacent.foldl (fun state next =>
    if next ∈ state.1 then state else (next :: state.1, next :: state.2)) state

/-- The search: the stack, the visited nodes and the nodes found so far. -/
def search (neighbours : α → List α) : ℕ → List α → List α → List α → List α × List α
  | 0, _, visited, found => (visited, found)
  | _ + 1, [], visited, found => (visited, found)
  | fuel + 1, node :: stack, visited, found =>
    let (visited, stack) := push (neighbours node) (visited, stack)
    search neighbours fuel stack visited (found ++ [node])

/-- A search from every start that has not been visited. -/
def components (neighbours : α → List α) (fuel : ℕ) : List α → List α → List (List α)
  | [], _ => []
  | start :: starts, visited =>
    if start ∈ visited then components neighbours fuel starts visited
    else
      let (visited, found) := search neighbours fuel [start] (start :: visited) []
      found :: components neighbours fuel starts visited

/-- What is pushed is new, and afterwards all neighbours have been visited. -/
lemma push_spec (adjacent visited stack : List α) : ∃ fresh : List α,
    push adjacent (visited, stack) = (fresh ++ visited, fresh ++ stack) ∧ fresh.Nodup
      ∧ (∀ node ∈ fresh, node ∉ visited ∧ node ∈ adjacent)
      ∧ ∀ node ∈ adjacent, node ∈ fresh ++ visited := by
  induction adjacent generalizing visited stack with
  | nil => exact ⟨[], rfl, List.nodup_nil, by simp, by simp⟩
  | cons next adjacent ih =>
    by_cases hvisited : next ∈ visited
    · obtain ⟨fresh, hpush, hnodup, hfresh, hall⟩ := ih visited stack
      have hskip : push (next :: adjacent) (visited, stack) = push adjacent (visited, stack) := by
        rw [push, List.foldl_cons, if_pos hvisited, push]
      refine ⟨fresh, hskip.trans hpush, hnodup,
        fun node hmem => ⟨(hfresh node hmem).1, List.mem_cons_of_mem _ (hfresh node hmem).2⟩, ?_⟩
      exact List.forall_mem_cons.mpr ⟨List.mem_append_right _ hvisited, hall⟩
    · obtain ⟨fresh, hpush, hnodup, hfresh, hall⟩ := ih (next :: visited) (next :: stack)
      have hstep : push (next :: adjacent) (visited, stack)
          = push adjacent (next :: visited, next :: stack) := by
        rw [push, List.foldl_cons, if_neg hvisited, push]
      have hnext : next ∉ fresh := fun hmem => (hfresh next hmem).1 List.mem_cons_self
      refine ⟨fresh ++ [next], ?_, ?_, ?_, ?_⟩
      · rw [hstep, hpush, List.append_assoc, List.append_assoc]
        rfl
      · exact List.nodup_append.mpr ⟨hnodup, List.nodup_singleton _, fun a ha b hb heq =>
          hnext (List.mem_singleton.mp hb ▸ heq ▸ ha)⟩
      · intro node hmem
        rcases List.mem_append.mp hmem with hmem | hmem
        · exact ⟨fun hin => (hfresh node hmem).1 (List.mem_cons_of_mem _ hin),
            List.mem_cons_of_mem _ (hfresh node hmem).2⟩
        · obtain rfl := List.mem_singleton.mp hmem
          exact ⟨hvisited, List.mem_cons_self⟩
      · rw [List.append_assoc]
        exact List.forall_mem_cons.mpr ⟨List.mem_append_right _ List.mem_cons_self, hall⟩

/-- The state of a search from `start` among `nodes`, when `old` had been visited before. -/
structure Searching (neighbours : α → List α) (nodes old : List α) (start : α)
    (stack visited found : List α) : Prop where
  isVisited : ∀ node, node ∈ visited ↔ node ∈ old ∨ node ∈ found ++ stack
  isNew : ∀ node ∈ found ++ stack, node ∉ old
  nodup : (found ++ stack).Nodup
  expanded : ∀ node ∈ found, ∀ next ∈ neighbours node, next ∈ visited
  reached : ∀ node ∈ found ++ stack,
    Relation.ReflTransGen (fun a b => b ∈ neighbours a) start node
  mem : ∀ node ∈ found ++ stack, node ∈ nodes
  started : start ∈ found ++ stack

variable {nodes old stack visited found : List α} {start : α}

/-- One round of the search. -/
lemma Searching.step {node : α}
    (searching : Searching neighbours nodes old start (node :: stack) visited found)
    (edges : ∀ a ∈ nodes, ∀ b ∈ neighbours a, b ∈ nodes) :
    Searching neighbours nodes old start (push (neighbours node) (visited, stack)).2
      (push (neighbours node) (visited, stack)).1 (found ++ [node]) := by
  obtain ⟨fresh, hpush, hnodup, hfresh, hall⟩ := push_spec (neighbours node) visited stack
  rw [hpush]
  dsimp only
  have hnode : node ∈ found ++ node :: stack := by simp
  have hmem (other : α) : other ∈ (found ++ [node]) ++ (fresh ++ stack)
      ↔ other ∈ found ++ node :: stack ∨ other ∈ fresh := by
    simp only [List.mem_append, List.mem_cons, List.not_mem_nil, or_false]
    tauto
  have hunvisited (other : α) (h : other ∈ fresh) : other ∉ found ++ node :: stack := fun hin =>
    (hfresh other h).1 ((searching.isVisited other).mpr (.inr hin))
  refine ⟨fun other => ?_, fun other h => ?_, ?_, fun other h next hnext => ?_, fun other h => ?_,
    fun other h => ?_, (hmem start).mpr (.inl searching.started)⟩
  · rw [List.mem_append, searching.isVisited, hmem]
    tauto
  · rcases (hmem other).mp h with hin | hin
    · exact searching.isNew other hin
    · exact fun hold => (hfresh other hin).1 ((searching.isVisited other).mpr (.inl hold))
  · have hperm : ((found ++ [node]) ++ (fresh ++ stack)).Perm
        (fresh ++ (found ++ node :: stack)) := by
      refine (List.perm_append_comm_assoc _ _ _).trans (List.Perm.append_left _ ?_)
      rw [List.append_assoc]
      exact .refl _
    rw [hperm.nodup_iff, List.nodup_append]
    exact ⟨hnodup, searching.nodup, fun a ha b hb heq => hunvisited a ha (heq ▸ hb)⟩
  · rcases List.mem_append.mp h with hin | hin
    · exact List.mem_append_right _ (searching.expanded other hin next hnext)
    · exact hall next (List.mem_singleton.mp hin ▸ hnext)
  · rcases (hmem other).mp h with hin | hin
    · exact searching.reached other hin
    · exact (searching.reached node hnode).tail (hfresh other hin).2
  · rcases (hmem other).mp h with hin | hin
    · exact searching.mem other hin
    · exact edges node (searching.mem node hnode) other (hfresh other hin).2

/-- With a round for every node the search ends on an empty stack. -/
lemma search_spec (edges : ∀ a ∈ nodes, ∀ b ∈ neighbours a, b ∈ nodes) {fuel : ℕ}
    (searching : Searching neighbours nodes old start stack visited found)
    (enough : nodes.length ≤ found.length + fuel) :
    Searching neighbours nodes old start [] (search neighbours fuel stack visited found).1
      (search neighbours fuel stack visited found).2 := by
  induction fuel generalizing stack visited found with
  | zero =>
    -- every node has been found, so nothing is left on the stack
    have hlength := (searching.nodup.subperm fun _ h => searching.mem _ h).length_le
    rw [List.length_append] at hlength
    obtain rfl : stack = [] := List.length_eq_zero_iff.mp (by omega)
    exact searching
  | succ fuel ih =>
    cases stack with
    | nil => exact searching
    | cons node stack =>
      apply ih (searching.step edges)
      rw [List.length_append, List.length_singleton]
      omega

/-- A set of nodes that is connected and closed under the edges. -/
structure IsComponent (neighbours : α → List α) (component : List α) : Prop where
  nonempty : component ≠ []
  closed : ∀ a ∈ component, ∀ b ∈ neighbours a, b ∈ component
  connected : ∃ start ∈ component, ∀ node ∈ component,
    Relation.ReflTransGen (fun a b => b ∈ neighbours a) start node

/-- The searches find components, no node twice, and none that had been visited. -/
theorem components_spec (edges : ∀ a ∈ nodes, ∀ b ∈ neighbours a, b ∈ nodes)
    (symmetric : ∀ a b, b ∈ neighbours a → a ∈ neighbours b) {starts : List α}
    (mem : ∀ start ∈ starts, start ∈ nodes)
    (closed : ∀ a ∈ visited, ∀ b ∈ neighbours a, b ∈ visited) {fuel : ℕ}
    (enough : nodes.length ≤ fuel) :
    (∀ component ∈ components neighbours fuel starts visited, IsComponent neighbours component)
      ∧ (components neighbours fuel starts visited).flatten.Nodup
      ∧ ∀ node ∈ (components neighbours fuel starts visited).flatten,
        node ∉ visited ∧ node ∈ nodes := by
  induction starts generalizing visited with
  | nil => simp [components]
  | cons start starts ih =>
    rw [List.forall_mem_cons] at mem
    unfold components
    by_cases hvisited : start ∈ visited
    · rw [if_pos hvisited]
      exact ih mem.2 closed
    · rw [if_neg hvisited]
      have hstart : Searching neighbours nodes visited start [start] (start :: visited) [] := by
        refine ⟨fun node => ?_, ?_, ?_, ?_, ?_, ?_, List.mem_singleton_self start⟩
        · rw [List.nil_append, List.mem_cons, List.mem_singleton, or_comm]
        · simpa using hvisited
        · exact List.nodup_singleton _
        · simp
        · intro node hnode
          rw [List.nil_append, List.mem_singleton] at hnode
          exact hnode ▸ .refl
        · simpa using mem.1
      have hsearched := search_spec edges hstart (by simpa using enough)
      generalize search neighbours fuel [start] (start :: visited) [] = result at hsearched
      obtain ⟨after, component⟩ := result
      dsimp only at hsearched ⊢
      have hnodes : ∀ node ∈ component, node ∉ visited ∧ node ∈ nodes := fun node hnode =>
        ⟨hsearched.isNew node (by simpa using hnode), hsearched.mem node (by simpa using hnode)⟩
      have hcomponentClosed : ∀ a ∈ component, ∀ b ∈ neighbours a, b ∈ component := by
        intro a ha b hb
        rcases (hsearched.isVisited b).mp (hsearched.expanded a ha b hb) with hold | hin
        · exact absurd (closed b hold a (symmetric a b hb)) (hnodes a ha).1
        · simpa using hin
      have hafterClosed : ∀ a ∈ after, ∀ b ∈ neighbours a, b ∈ after := by
        intro a ha b hb
        rcases (hsearched.isVisited a).mp ha with hold | hin
        · exact (hsearched.isVisited b).mpr (.inl (closed a hold b hb))
        · exact hsearched.expanded a (by simpa using hin) b hb
      have hmember : start ∈ component := by simpa using hsearched.started
      obtain ⟨hcomponents, hnodup, hrest⟩ := ih mem.2 hafterClosed
      refine ⟨List.forall_mem_cons.mpr ⟨⟨List.ne_nil_of_mem hmember, hcomponentClosed,
        start, hmember, fun node hnode => hsearched.reached node (by simpa using hnode)⟩,
        hcomponents⟩, ?_, ?_⟩
      · rw [List.flatten_cons, List.nodup_append]
        refine ⟨by simpa using hsearched.nodup, hnodup, fun a ha b hb heq => ?_⟩
        exact (hrest b hb).1 ((hsearched.isVisited b).mpr (.inr (by simpa using heq ▸ ha)))
      · rw [List.flatten_cons]
        refine List.forall_mem_append.mpr ⟨hnodes, fun node hnode => ⟨?_, (hrest node hnode).2⟩⟩
        exact fun hold => (hrest node hnode).1 ((hsearched.isVisited node).mpr (.inl hold))

end Components
