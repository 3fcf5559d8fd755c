import Mathlib

/-!
# Keeping the better of two

A party that holds one value, compares it with every value it is offered and keeps the greater,
ends with a greatest value among all that it has seen (`isLE_settle`).  Where no two different
values tie, this does not depend on the order of the offers nor on repetitions
(`settle_unique`).  The comparison is any transitive three-way comparison.
-/

namespace Preference

open Std

universe u

variable {α : Type u} (cmp : α → α → Ordering)

/-- The offered value if it is strictly greater than the current one. -/
def keep (current offered : α) : α := if cmp current offered = .lt then offered else current

/-- What is left after a sequence of offers. -/
def settle (start : α) (offers : List α) : α := offers.foldl (keep cmp) start

variable {cmp} {start start' : α} {offers offers' : List α}

@[simp] lemma settle_nil : settle cmp start [] = start := rfl

@[simp] lemma settle_cons (offer : α) :
    settle cmp start (offer :: offers) = settle cmp (keep cmp start offer) offers := rfl

/-- Nothing but what was seen is left. -/
lemma settle_mem : settle cmp start offers ∈ start :: offers := by
  induction offers generalizing start with
  | nil => simp
  | cons offer offers ih =>
    rw [settle_cons]
    rcases List.mem_cons.mp (@ih (keep cmp start offer)) with hkept | hlater
    · rw [hkept, keep]
      split <;> simp
    · exact List.mem_cons_of_mem _ (List.mem_cons_of_mem _ hlater)

lemma isLE_keep [OrientedCmp cmp] (current offered : α) :
    (cmp current (keep cmp current offered)).isLE ∧ (cmp offered (keep cmp current offered)).isLE := by
  have hrefl (a : α) : cmp a a = .eq := ReflCmp.compare_self
  unfold keep
  split
  · rename_i hlt
    rw [hlt, hrefl]
    exact ⟨rfl, rfl⟩
  · rename_i hnot
    have hflip : cmp offered current = (cmp current offered).swap := OrientedCmp.eq_swap
    rw [hrefl, hflip]
    refine ⟨rfl, ?_⟩
    revert hnot
    cases cmp current offered <;> simp

/-- What is left is a greatest value of those seen. -/
theorem isLE_settle [TransCmp cmp] : ∀ a ∈ start :: offers, (cmp a (settle cmp start offers)).isLE := by
  induction offers generalizing start with
  | nil =>
    have hrefl : cmp start start = .eq := ReflCmp.compare_self
    intro a ha
    rw [List.mem_singleton.mp ha, settle_nil, hrefl]
    rfl
  | cons offer offers ih =>
    have hkept := @ih (keep cmp start offer) _ List.mem_cons_self
    obtain ⟨hstart, hoffer⟩ : (cmp start (keep cmp start offer)).isLE
        ∧ (cmp offer (keep cmp start offer)).isLE := isLE_keep start offer
    intro a ha
    rw [settle_cons]
    rcases List.mem_cons.mp ha with rfl | ha
    · exact TransCmp.isLE_trans hstart hkept
    · rcases List.mem_cons.mp ha with rfl | ha
      · exact TransCmp.isLE_trans hoffer hkept
      · exact ih a (List.mem_cons_of_mem _ ha)

/-- **Order independence.** Two parties that have seen the same values are left with the same one,
if no two different values tie. -/
theorem settle_unique [TransCmp cmp] (same : ∀ a, a ∈ start :: offers ↔ a ∈ start' :: offers')
    (noTies : ∀ a ∈ start :: offers, ∀ b ∈ start :: offers, cmp a b = .eq → a = b) :
    settle cmp start offers = settle cmp start' offers' := by
  have hmem : settle cmp start' offers' ∈ start :: offers := (same _).mpr settle_mem
  refine noTies _ settle_mem _ hmem ?_
  exact OrientedCmp.isLE_antisymm (isLE_settle _ ((same _).mp settle_mem)) (isLE_settle _ hmem)

end Preference
