import Mathlib

/-!
# Filling one group after the other

Weights in a row are cut into groups of a limited weight.  The greedy cut, which closes a group only
when the next weight does not fit, needs no more groups than any other cut (`greedyCount_le`).
-/

namespace Filling

/-- The number of groups of the greedy cut, from an open group of some weight on. -/
def greedyCount (limit : ℕ) : List ℕ → ℕ → ℕ
  | [], _ => 1
  | weight :: weights, opened =>
    if limit < opened + weight then 1 + greedyCount limit weights weight
    else greedyCount limit weights (opened + weight)

variable {limit : ℕ}

/-- A lighter open group needs no more groups, and a new group at most one more. -/
lemma greedyCount_compare (weights : List ℕ) :
    (∀ lighter heavier, lighter ≤ heavier →
        greedyCount limit weights lighter ≤ greedyCount limit weights heavier)
      ∧ ∀ opened other,
        greedyCount limit weights opened ≤ 1 + greedyCount limit weights other := by
  induction weights with
  | nil => simp [greedyCount]
  | cons weight weights ih =>
    obtain ⟨mono, other⟩ := ih
    constructor
    · intro lighter heavier hle
      rw [greedyCount, greedyCount]
      split_ifs with hlighter hheavier
      · exact le_rfl
      · omega
      · exact other _ _
      · exact mono _ _ (by omega)
    · intro opened heavier
      rw [greedyCount, greedyCount]
      split_ifs
      · have := other weight weight
        omega
      · have := mono weight (heavier + weight) (by omega)
        omega
      · have := other (opened + weight) weight
        omega
      · exact other _ _

/-- The first weight of a cut opens a group. -/
lemma exists_first_group {weight : ℕ} {weights : List ℕ} {groups : List (List ℕ)}
    (cut : groups.flatten = weight :: weights) :
    ∃ (group : List ℕ) (rest : List (List ℕ)), (weight :: group) ∈ groups
      ∧ rest.Sublist groups
      ∧ rest.length + 1 ≤ groups.length ∧ weights = group ++ rest.flatten := by
  induction groups with
  | nil => cases cut
  | cons first rest ih =>
    cases first with
    | nil =>
      obtain ⟨group, left, hmem, hsublist, hlen, hweights⟩ := ih (by simpa using cut)
      exact ⟨group, left, List.mem_cons_of_mem _ hmem, hsublist.cons _,
        by rw [List.length_cons]; omega, hweights⟩
    | cons head tail =>
      simp only [List.flatten_cons, List.cons_append, List.cons.injEq] at cut
      obtain ⟨rfl, hweights⟩ := cut
      exact ⟨tail, rest, List.mem_cons_self, List.sublist_cons_self _ _, le_rfl, hweights.symm⟩

/-- **The greedy cut.** It has no more groups than any cut that continues the open group and then
keeps to the limit. -/
theorem greedyCount_le {weights first : List ℕ} {groups : List (List ℕ)} {opened : ℕ}
    (cut : weights = first ++ groups.flatten) (fits : opened + first.sum ≤ limit)
    (fit : ∀ group ∈ groups, group.sum ≤ limit) :
    greedyCount limit weights opened ≤ 1 + groups.length := by
  induction weights generalizing first groups opened with
  | nil => exact Nat.le_add_right _ _
  | cons weight weights ih =>
    cases first with
    | cons head tail =>
      rw [List.cons_append, List.cons.injEq] at cut
      obtain ⟨rfl, hweights⟩ := cut
      rw [List.sum_cons] at fits
      rw [greedyCount, if_neg (by omega)]
      exact ih hweights (by omega) fit
    | nil =>
      obtain ⟨group, rest, hmem, hsublist, hlen, hweights⟩ := exists_first_group cut.symm
      have hgroup := fit _ hmem
      rw [List.sum_cons] at hgroup
      -- from the group of the first weight on, the rest of the cut follows
      have hrest := ih hweights hgroup
        fun other hother => fit other (hsublist.subset hother)
      have hother := (@greedyCount_compare limit weights).2 (opened + weight) weight
      rw [greedyCount]
      split
      · omega
      · omega

end Filling
