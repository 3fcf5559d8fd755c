import Mathlib

/-!
# Weighted totals of finite maps

For a finite map `m` and a weight `w` on its entries, `total w m` is the sum of `w k v` over the
entries of `m`.  An insertion of a fresh key adds the weight of the new entry
(`total_insert_of_not_mem`), a removal of a present key takes away the weight of the old one
(`total_erase`), and replacing an entry does both (`total_insert`).  With the weight restricted
to some of the entries the same three facts follow the total of those entries, so one lemma
family serves the sum of all values as well as the sum over one class of keys.

The maps are extensional ordered trees, so a map *is* its lookup function, and the order of the
entries plays no role in a total (`total_congr`).

`Below` compares two maps entry by entry; removals and equal insertions respect it.
-/

namespace MapSum

open Std

universe u v

variable {κ : Type u} {ν : Type v} {cmp : κ → κ → Ordering}

/-- The sum of the weights of the entries of a map. -/
def total (w : κ → ν → ℕ) (m : ExtTreeMap κ ν cmp) [TransCmp cmp] : ℕ :=
  (m.toList.map fun entry => w entry.1 entry.2).sum

variable [TransCmp cmp]

/-! ## Entries as lists -/

/-- Distinct entries of a map are listed once. -/
lemma toList_nodup [LawfulEqCmp cmp] (m : ExtTreeMap κ ν cmp) : m.toList.Nodup :=
  m.distinct_keys_toList.imp fun {a b} hab heq => hab (by rw [heq]; exact ReflCmp.compare_self)

/-- Inserting a fresh key adds exactly its entry to the list of entries. -/
lemma toList_insert_perm [LawfulEqCmp cmp] {m : ExtTreeMap κ ν cmp} {k : κ} {v : ν}
    (fresh : k ∉ m) : (m.insert k v).toList.Perm ((k, v) :: m.toList) := by
  have habsent : (k, v) ∉ m.toList := by
    intro hmem
    rw [ExtTreeMap.mem_toList_iff_getElem?_eq_some] at hmem
    simp [ExtTreeMap.getElem?_eq_none fresh] at hmem
  rw [List.perm_ext_iff_of_nodup (toList_nodup _) (List.nodup_cons.mpr ⟨habsent, toList_nodup m⟩)]
  rintro ⟨k', v'⟩
  rw [ExtTreeMap.mem_toList_iff_getElem?_eq_some, List.mem_cons,
    ExtTreeMap.mem_toList_iff_getElem?_eq_some, ExtTreeMap.getElem?_insert]
  by_cases hk : cmp k k' = .eq
  · obtain rfl := LawfulEqCmp.eq_of_compare hk
    simp [ExtTreeMap.getElem?_eq_none fresh, ReflCmp.compare_self, eq_comm]
  · have hne : k' ≠ k := fun h => hk (h ▸ ReflCmp.compare_self)
    simp [hk, hne]

/-! ## Totals -/

@[simp] lemma total_empty (w : κ → ν → ℕ) : total w (∅ : ExtTreeMap κ ν cmp) = 0 := by
  simp [total, ExtTreeMap.toList_eq_nil_iff.mpr rfl]

/-- Entries of equal weight give equal totals. -/
lemma total_congr [LawfulEqCmp cmp] {w w' : κ → ν → ℕ} {m : ExtTreeMap κ ν cmp}
    (h : ∀ k v, m[k]? = some v → w k v = w' k v) : total w m = total w' m := by
  unfold total
  congr 1
  refine List.map_congr_left fun entry hentry => ?_
  exact h _ _ (ExtTreeMap.mem_toList_iff_getElem?_eq_some.mp hentry)

/-- A weight that vanishes on every entry has the total zero. -/
lemma total_eq_zero [LawfulEqCmp cmp] {w : κ → ν → ℕ} {m : ExtTreeMap κ ν cmp}
    (h : ∀ k v, m[k]? = some v → w k v = 0) : total w m = 0 := by
  have hcongr : total w m = total (fun _ _ => 0) m := total_congr h
  rw [hcongr]
  simp [total]

/-- A fresh key adds the weight of its entry. -/
lemma total_insert_of_not_mem [LawfulEqCmp cmp] {w : κ → ν → ℕ} {m : ExtTreeMap κ ν cmp} {k : κ}
    {v : ν} (fresh : k ∉ m) : total w (m.insert k v) = w k v + total w m := by
  unfold total
  rw [((toList_insert_perm fresh).map _).sum_eq]
  simp

/-- Erasing a key and inserting its old entry again restores the map. -/
lemma insert_erase_self [LawfulEqCmp cmp] {m : ExtTreeMap κ ν cmp} {k : κ} {v : ν}
    (h : m[k]? = some v) : (m.erase k).insert k v = m := by
  refine ExtTreeMap.ext_getElem? fun k' => ?_
  rw [ExtTreeMap.getElem?_insert, ExtTreeMap.getElem?_erase]
  by_cases hk : cmp k k' = .eq
  · obtain rfl := LawfulEqCmp.eq_of_compare hk
    simp [h]
  · simp [hk]

/-- Erasing an absent key changes nothing. -/
lemma erase_eq_self [LawfulEqCmp cmp] {m : ExtTreeMap κ ν cmp} {k : κ} (absent : k ∉ m) :
    m.erase k = m := by
  refine ExtTreeMap.ext_getElem? fun k' => ?_
  rw [ExtTreeMap.getElem?_erase]
  split
  · rename_i heq
    rw [← LawfulEqCmp.eq_of_compare heq, ExtTreeMap.getElem?_eq_none absent]
  · rfl

/-- A removal takes away the weight of the entry removed. -/
lemma total_erase [LawfulEqCmp cmp] {w : κ → ν → ℕ} {m : ExtTreeMap κ ν cmp} {k : κ} {v : ν}
    (h : m[k]? = some v) : w k v + total w (m.erase k) = total w m := by
  have hfresh : k ∉ m.erase k := by simp
  rw [← total_insert_of_not_mem hfresh, insert_erase_self h]

/-- Inserting at a present key exchanges the weights of its old and its new entry. -/
lemma total_insert [LawfulEqCmp cmp] {w : κ → ν → ℕ} {m : ExtTreeMap κ ν cmp} {k : κ} {v v' : ν}
    (h : m[k]? = some v) : w k v + total w (m.insert k v') = w k v' + total w m := by
  have herase : (m.erase k).insert k v' = m.insert k v' := by
    refine ExtTreeMap.ext_getElem? fun k' => ?_
    rw [ExtTreeMap.getElem?_insert, ExtTreeMap.getElem?_insert, ExtTreeMap.getElem?_erase]
    by_cases hk : cmp k k' = .eq <;> simp [hk]
  have hfresh : k ∉ m.erase k := by simp
  rw [← herase, total_insert_of_not_mem hfresh, ← total_erase (w := w) h]
  omega

/-- Every entry weighs at most the total. -/
lemma le_total [LawfulEqCmp cmp] {w : κ → ν → ℕ} {m : ExtTreeMap κ ν cmp} {k : κ} {v : ν}
    (h : m[k]? = some v) : w k v ≤ total w m := by
  rw [← total_erase (w := w) h]
  omega

/-- An insertion adds at most the weight of the new entry. -/
lemma total_insert_le [LawfulEqCmp cmp] (w : κ → ν → ℕ) (m : ExtTreeMap κ ν cmp) (k : κ) (v : ν) :
    total w (m.insert k v) ≤ w k v + total w m := by
  cases hk : m[k]? with
  | none =>
    exact Nat.le_of_eq (total_insert_of_not_mem (by simpa using hk))
  | some old =>
    have hexchange : w k old + total w (m.insert k v) = w k v + total w m := total_insert hk
    omega

/-- The values are those of the entries. -/
lemma values_eq_map_toList (m : ExtTreeMap κ ν cmp) : m.values = m.toList.map Prod.snd := by
  obtain ⟨⟨inner⟩⟩ := m
  induction inner using Quotient.ind with
  | _ inner =>
    show inner.inner.values = (DTreeMap.Internal.Impl.Const.toList inner.inner).map Prod.snd
    rw [DTreeMap.Internal.Impl.values_eq_map_snd,
      DTreeMap.Internal.Impl.Const.toList_eq_toListModel_map, List.map_map]
    rfl

/-! ## A map below another -/

/-- Every entry of the first map is one of the second. -/
def Below (m m' : ExtTreeMap κ ν cmp) : Prop :=
  ∀ (k : κ) (v : ν), m[k]? = some v → m'[k]? = some v

namespace Below

variable {m m' m'' : ExtTreeMap κ ν cmp}

lemma refl (m : ExtTreeMap κ ν cmp) : Below m m := fun _ _ h => h

lemma trans (first : Below m m') (second : Below m' m'') : Below m m'' :=
  fun k v h => second k v (first k v h)

lemma erase_self (m : ExtTreeMap κ ν cmp) (k : κ) : Below (m.erase k) m := by
  intro k' v h
  rw [ExtTreeMap.getElem?_erase] at h
  split at h
  · cases h
  · exact h

lemma erase (below : Below m m') (k : κ) : Below (m.erase k) (m'.erase k) := by
  intro k' v h
  rw [ExtTreeMap.getElem?_erase] at h ⊢
  split at h
  · cases h
  · rename_i hne
    rw [if_neg hne]
    exact below k' v h

lemma insert (below : Below m m') (k : κ) (v : ν) : Below (m.insert k v) (m'.insert k v) := by
  intro k' v' h
  rw [ExtTreeMap.getElem?_insert] at h ⊢
  split at h
  · rename_i heq
    rw [if_pos heq]
    exact h
  · rename_i hne
    rw [if_neg hne]
    exact below k' v' h

end Below

/-! ## Two maps with the same weights -/

/-- The weight at a key, zero where the key is absent. -/
def weightAt (w : κ → ν → ℕ) (m : ExtTreeMap κ ν cmp) (k : κ) : ℕ := (m[k]?.map (w k)).getD 0

lemma weightAt_erase [LawfulEqCmp cmp] (w : κ → ν → ℕ) (m : ExtTreeMap κ ν cmp) (k k' : κ) :
    weightAt w (m.erase k) k' = if cmp k k' = .eq then 0 else weightAt w m k' := by
  unfold weightAt
  rw [ExtTreeMap.getElem?_erase]
  split <;> rfl

/-- Taking the weight at a key out of a total leaves the total of the rest. -/
lemma weightAt_add_total_erase [LawfulEqCmp cmp] (w : κ → ν → ℕ) (m : ExtTreeMap κ ν cmp) (k : κ) :
    weightAt w m k + total w (m.erase k) = total w m := by
  cases hk : m[k]? with
  | none =>
    rw [erase_eq_self (by simpa using hk), weightAt, hk]
    exact Nat.zero_add _
  | some v =>
    rw [weightAt, hk, ← total_erase (w := w) hk]
    rfl

/-- Two maps, of values of any kind, that have the same weight at every key have the same total. -/
theorem total_eq_of_weightAt [LawfulEqCmp cmp] {ν' : Type v} {w : κ → ν → ℕ} {w' : κ → ν' → ℕ}
    {m : ExtTreeMap κ ν cmp} {m' : ExtTreeMap κ ν' cmp}
    (h : ∀ k, weightAt w m k = weightAt w' m' k) : total w m = total w' m' := by
  -- by induction on the size of the first map, taking the same key out of both
  induction hsize : m.size generalizing m m' with
  | zero =>
    obtain rfl := ExtTreeMap.eq_empty_iff_size_eq_zero.mpr hsize
    rw [total_empty, total_eq_zero]
    intro k v hk
    have hweight := h k
    simpa [weightAt, hk] using hweight.symm
  | succ size ih =>
    have hnonempty : m.toList ≠ [] := by
      intro hnil
      rw [ExtTreeMap.toList_eq_nil_iff] at hnil
      simp [hnil] at hsize
    obtain ⟨⟨k, v⟩, hmem⟩ := List.exists_mem_of_ne_nil _ hnonempty
    have hk := ExtTreeMap.mem_toList_iff_getElem?_eq_some.mp hmem
    have hmem : k ∈ m := by simp [ExtTreeMap.mem_iff_isSome_getElem?, hk]
    have hrest : total w (m.erase k) = total w' (m'.erase k) := by
      apply ih
      · intro k'
        rw [weightAt_erase, weightAt_erase, h k']
      · rw [ExtTreeMap.size_erase, if_pos (ExtTreeMap.contains_iff_mem.mpr hmem), hsize]
        rfl
    rw [← weightAt_add_total_erase w m k, ← weightAt_add_total_erase w' m' k, h k, hrest]

end MapSum
