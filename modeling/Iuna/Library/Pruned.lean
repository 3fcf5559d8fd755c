import Mathlib

/-!
# Maps of maps without empty entries

An index that groups entries by a key holds a map under every key, and drops a key as soon as its
map is empty.  So an absent key and an empty group mean the same: `under m k` is the group of a
key, empty where there is none, and `put m k group` writes a group, or removes the key if there is
nothing to write.  `under_put` is then all a reader of the index needs, and `Pruned` says that no
empty group is stored.
-/

namespace Pruned

open Std

universe u v w

variable {κ : Type u} {γ : Type v} {ν : Type w} {cmp : κ → κ → Ordering} {cmp' : γ → γ → Ordering}

/-- The group of a key, empty where the key is absent. -/
def under [TransCmp cmp] [TransCmp cmp'] (m : ExtTreeMap κ (ExtTreeMap γ ν cmp') cmp) (k : κ) :
    ExtTreeMap γ ν cmp' :=
  m[k]?.getD ∅

/-- Write the group of a key; an empty group is not stored. -/
def put [TransCmp cmp] [TransCmp cmp'] (m : ExtTreeMap κ (ExtTreeMap γ ν cmp') cmp) (k : κ)
    (group : ExtTreeMap γ ν cmp') : ExtTreeMap κ (ExtTreeMap γ ν cmp') cmp :=
  if group.isEmpty then m.erase k else m.insert k group

/-- No empty group is stored. -/
def IsPruned [TransCmp cmp] [TransCmp cmp'] (m : ExtTreeMap κ (ExtTreeMap γ ν cmp') cmp) : Prop :=
  ∀ (k : κ) (group : ExtTreeMap γ ν cmp'), m[k]? = some group → group ≠ ∅

variable [TransCmp cmp] [LawfulEqCmp cmp] [TransCmp cmp']
  {m : ExtTreeMap κ (ExtTreeMap γ ν cmp') cmp} {k : κ} {group : ExtTreeMap γ ν cmp'}

omit [LawfulEqCmp cmp] in
lemma under_of_some (h : m[k]? = some group) : under m k = group := by
  rw [under, h, Option.getD_some]

omit [LawfulEqCmp cmp] in
@[simp] lemma under_empty (k : κ) :
    under (∅ : ExtTreeMap κ (ExtTreeMap γ ν cmp') cmp) k = ∅ := by
  simp [under]

omit [LawfulEqCmp cmp] in
/-- A group that has an entry is stored. -/
lemma getElem?_of_under_ne (h : under m k ≠ ∅) : m[k]? = some (under m k) := by
  cases hk : m[k]? with
  | none => simp [under, hk] at h
  | some group => rw [under_of_some hk]

/-- What is under a key after a write. -/
theorem under_put [DecidableEq κ] (k' : κ) :
    under (put m k group) k' = if k = k' then group else under m k' := by
  by_cases hk : k = k'
  · subst hk
    rw [if_pos rfl, put]
    split
    · rename_i hempty
      simp only [under, ExtTreeMap.getElem?_erase_self, Option.getD_none]
      exact (ExtTreeMap.isEmpty_iff.mp hempty).symm
    · simp [under]
  · have hne : cmp k k' ≠ .eq := fun h => hk (LawfulEqCmp.eq_of_compare h)
    rw [if_neg hk, put]
    split
    · simp [under, ExtTreeMap.getElem?_erase, hne]
    · simp [under, ExtTreeMap.getElem?_insert, hne]

omit [LawfulEqCmp cmp] in
/-- Inserting a group that is not empty is a write. -/
lemma insert_eq_put (h : group ≠ ∅) : m.insert k group = put m k group := by
  rw [put, if_neg]
  rwa [ExtTreeMap.isEmpty_iff]

omit [LawfulEqCmp cmp] in
lemma isPruned_empty : IsPruned (∅ : ExtTreeMap κ (ExtTreeMap γ ν cmp') cmp) := by
  intro k group h
  simp at h

omit [LawfulEqCmp cmp] in
/-- A write keeps a map pruned. -/
lemma IsPruned.put (h : IsPruned m) : IsPruned (put m k group) := by
  intro k' group' hget
  unfold Pruned.put at hget
  by_cases hk : cmp k k' = .eq
  · split at hget
    · simp [hk] at hget
    · rename_i hnonempty
      rw [ExtTreeMap.getElem?_insert, if_pos hk] at hget
      obtain rfl := Option.some.inj hget
      rwa [ExtTreeMap.isEmpty_iff] at hnonempty
  · split at hget
    · exact h k' group' (by simpa [ExtTreeMap.getElem?_erase, hk] using hget)
    · exact h k' group' (by simpa [ExtTreeMap.getElem?_insert, hk] using hget)

omit [LawfulEqCmp cmp] in
/-- A group with an entry is not empty. -/
lemma under_ne_of_mem {c : γ} (h : c ∈ under m k) : under m k ≠ ∅ := by
  intro hempty
  rw [hempty] at h
  simp at h

end Pruned
