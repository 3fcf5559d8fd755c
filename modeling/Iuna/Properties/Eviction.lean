import Mathlib.Algebra.Order.BigOperators.Group.List
import Mathlib.Data.List.Flatten
import Iuna.Domain.Mempool
import Iuna.Library.Components

/-!
# Eviction from the mempool

The packages that may be evicted for a candidate are the connected components of the pending
transactions under their dependencies.  The plan takes whole packages, cheapest first, and none
that the candidate depends on, so that nothing is left without its parents; and it stops as soon
as the candidate has room.
-/

namespace Iuna

/-! ## Dependencies -/

/-- A transaction spends an output of another one. -/
def Transaction.SpendsOutputOf (child parent : Transaction) : Prop :=
  ∃ input ∈ child.inputs, input.outpoint.txid = parent.signature

/-- One of two transactions spends an output of the other. -/
def Transaction.DependsWith (a b : Transaction) : Prop := a.SpendsOutputOf b ∨ b.SpendsOutputOf a

/-- The pending transactions that a candidate spends from, directly or through others. -/
def PendingAncestor (pending : List Transaction) : Transaction → Transaction → Prop :=
  Relation.TransGen fun child parent => parent ∈ pending ∧ child.SpendsOutputOf parent

/-- A connected component of the pending transactions. -/
structure IsPackage (pending package : List Transaction) : Prop where
  isPending : ∀ transaction ∈ package, transaction ∈ pending
  closed : ∀ a ∈ package, ∀ b ∈ pending, a.DependsWith b → b ∈ package
  connected : ∃ start ∈ package, ∀ transaction ∈ package,
    Relation.ReflTransGen Transaction.DependsWith start transaction

section Graph

variable {pending : List Transaction} {signature : Str} {index : ℕ}

/-- With distinct signatures the map of the source finds every pending transaction. -/
lemma pendingIndex_eq_some (distinct : (pending.map Transaction.signature).Nodup) :
    pendingIndex pending signature = some index ↔
      ∃ transaction, pending[index]? = some transaction ∧ transaction.signature = signature := by
  unfold pendingIndex
  rw [Option.map_eq_some_iff]
  constructor
  · rintro ⟨⟨transaction, found⟩, hfind, rfl⟩
    have hmem := List.mem_reverse.mp (List.mem_of_find?_eq_some hfind)
    exact ⟨transaction, List.mem_zipIdx_iff_getElem?.mp hmem, by
      simpa using List.find?_some hfind⟩
  · rintro ⟨transaction, hget, hsignature⟩
    have hsome : (pending.zipIdx.reverse.find? fun entry =>
        entry.1.signature = signature).isSome = true := by
      rw [List.find?_isSome]
      exact ⟨(transaction, index), List.mem_reverse.mpr (List.mem_zipIdx_iff_getElem?.mpr hget),
        by simpa using hsignature⟩
    obtain ⟨⟨other, found⟩, hfind⟩ := Option.isSome_iff_exists.mp hsome
    refine ⟨(other, found), hfind, ?_⟩
    have hother := List.mem_zipIdx_iff_getElem?.mp
      (List.mem_reverse.mp (List.mem_of_find?_eq_some hfind))
    have hsame : other.signature = signature := by simpa using List.find?_some hfind
    -- both positions hold the same signature
    have hfound : (pending.map Transaction.signature)[found]? = some signature := by
      rw [List.getElem?_map, hother, Option.map_some, hsame]
    have hindex : (pending.map Transaction.signature)[index]? = some signature := by
      rw [List.getElem?_map, hget, Option.map_some, hsignature]
    obtain ⟨hlt, -⟩ := List.getElem?_eq_some_iff.mp hfound
    exact (List.getElem?_inj hlt distinct).mp (hfound.trans hindex.symm)

/-- The edges join the pending transactions that depend on each other. -/
lemma mem_pendingEdges (distinct : (pending.map Transaction.signature).Nodup) {i j : ℕ} :
    j ∈ pendingEdges pending i ↔ ∃ a b, pending[i]? = some a ∧ pending[j]? = some b
      ∧ a.DependsWith b := by
  unfold pendingEdges
  simp only [List.mem_flatMap, Prod.exists, List.mem_zipIdx_iff_getElem?]
  constructor
  · rintro ⟨child, position, hchild, input, hinput, hmem⟩
    split at hmem
    · cases hmem
    · rename_i parent hparent
      obtain ⟨transaction, hget, hsignature⟩ := (pendingIndex_eq_some distinct).mp hparent
      have hspends : child.SpendsOutputOf transaction := ⟨input, hinput, hsignature.symm⟩
      rw [List.mem_append] at hmem
      rcases hmem with hmem | hmem
      · split at hmem
        · rename_i hposition
          obtain rfl := List.mem_singleton.mp hmem
          exact ⟨child, transaction, hposition ▸ hchild, hget, .inl hspends⟩
        · cases hmem
      · split at hmem
        · rename_i hposition
          obtain rfl := List.mem_singleton.mp hmem
          exact ⟨transaction, child, hposition ▸ hget, hchild, .inr hspends⟩
        · cases hmem
  · rintro ⟨a, b, ha, hb, ⟨input, hinput, htxid⟩ | ⟨input, hinput, htxid⟩⟩
    · refine ⟨a, i, ha, input, hinput, ?_⟩
      rw [(pendingIndex_eq_some distinct).mpr ⟨b, hb, htxid.symm⟩]
      simp
    · refine ⟨b, j, hb, input, hinput, ?_⟩
      rw [(pendingIndex_eq_some distinct).mpr ⟨a, ha, htxid.symm⟩]
      simp

/-- The search of the source. -/
lemma connectedComponent_eq (fuel : ℕ) (stack visited indices : List ℕ) :
    connectedComponent pending fuel stack visited indices
      = Components.search (pendingEdges pending) fuel stack visited indices := by
  induction fuel generalizing stack visited indices with
  | zero => rfl
  | succ fuel ih =>
    cases stack with
    | nil => rfl
    | cons position stack => exact ih _ _ _

/-- The transactions at a list of positions. -/
def transactionsAt (pending : List Transaction) (indices : List ℕ) : List Transaction :=
  indices.filterMap fun index => pending[index]?

/-- The candidate spends an output of a transaction of the component. -/
def protectsCandidate (pending : List Transaction) (candidate : Transaction)
    (indices : List ℕ) : Bool :=
  indices.any fun index => candidate.inputs.any fun input =>
    pendingIndex pending input.outpoint.txid = some index

/-- The packages are made of the components that are not protected. -/
lemma evictionPackages_components {candidate : Transaction} {starts visited : List ℕ}
    {packages : List EvictionPackage}
    (h : evictionPackages pending candidate starts visited = .ok packages) :
    List.Forall₂ (fun indices package => evictionPackage pending indices = .ok package)
      ((Components.components (pendingEdges pending) pending.length starts visited).filter
        fun indices => ¬ protectsCandidate pending candidate indices) packages := by
  induction starts generalizing visited packages with
  | nil =>
    simp only [evictionPackages, Outcome.pure_eq_ok] at h
    exact h ▸ .nil
  | cons start starts ih =>
    unfold evictionPackages at h
    unfold Components.components
    by_cases hvisited : start ∈ visited
    · rw [if_pos hvisited] at h ⊢
      exact ih h
    · rw [if_neg hvisited] at h ⊢
      rw [connectedComponent_eq] at h
      generalize Components.search (pendingEdges pending) pending.length [start]
        (start :: visited) [] = result at h ⊢
      obtain ⟨after, indices⟩ := result
      dsimp only at h ⊢
      by_cases hprotected : protectsCandidate pending candidate indices = true
      · rw [List.filter_cons_of_neg (by simpa using hprotected)]
        unfold protectsCandidate at hprotected
        rw [if_pos hprotected] at h
        exact ih h
      · rw [List.filter_cons_of_pos (by simpa using hprotected)]
        unfold protectsCandidate at hprotected
        rw [if_neg hprotected] at h
        simp only [Outcome.bind_eq_ok, Outcome.pure_eq_ok] at h
        obtain ⟨package, hpackage, packages, hpackages, rfl⟩ := h
        exact .cons hpackage (ih hpackages)

/-! ## Packages -/

lemma serializedPoolLen_eq_sum {transactions : List Transaction} {total : ℕ}
    (h : Ledger.serializedPoolLen transactions = .ok total) :
    total = (transactions.map Transaction.jsonSize).sum := by
  rw [← (foldlM_checkedAdd_eq_ok.mp h).1, Nat.zero_add]

/-- What a package says of its transactions. -/
structure Describes (pending : List Transaction) (indices : List ℕ) (package : EvictionPackage) :
    Prop where
  signatures : ∀ signature, signature ∈ package.signatures
    ↔ ∃ transaction ∈ transactionsAt pending indices, transaction.signature = signature
  fee : package.fee = ((transactionsAt pending indices).map Transaction.fee).sum
  economicBytes : package.economicBytes
    = ((transactionsAt pending indices).map Transaction.economicSizeBytes).sum
  pendingBytes : package.pendingBytes
    = ((transactionsAt pending indices).map Transaction.jsonSize).sum
  pendingCount : package.pendingCount = indices.length

lemma evictionPackage_describes {indices : List ℕ} {package : EvictionPackage}
    (h : evictionPackage pending indices = .ok package) : Describes pending indices package := by
  simp only [evictionPackage, Outcome.bind_eq_ok, Outcome.pure_eq_ok] at h
  obtain ⟨bytes, hbytes, rfl⟩ := h
  refine ⟨fun signature => ?_, rfl, rfl, ?_, rfl⟩
  · rw [(List.mergeSort_perm _ _).mem_iff, List.mem_map]
    rfl
  · rw [← (foldlM_checkedAdd_eq_ok.mp hbytes).1, Nat.zero_add]
    rfl

/-- The candidate pays a strictly higher fee rate. -/
def Outbids (candidate : Transaction) (fee economicBytes : ℕ) : Prop :=
  fee * candidate.economicSizeBytes < candidate.fee * economicBytes

lemma outbids_of_saturating {candidate : Transaction} {fee economicBytes : ℕ}
    (h : ¬ saturatingMulWide candidate.fee economicBytes
      ≤ saturatingMulWide fee candidate.economicSizeBytes) :
    Outbids candidate fee economicBytes := by
  unfold saturatingMulWide at h
  unfold Outbids
  omega

/-- The loop over the packages takes a front part of them. -/
lemma evictPackages_spec {candidate : Transaction} {candidateBytes : ℕ}
    {packages : List EvictionPackage} {count bytes : ℕ} {before evicted : List Str}
    (h : evictPackages candidate candidateBytes packages count bytes before = some evicted) :
    ∃ taken left, packages = taken ++ left
      ∧ (∀ signature, signature ∈ evicted ↔ signature ∈ before
        ∨ ∃ package ∈ taken, signature ∈ package.signatures)
      ∧ (∀ package ∈ taken, Outbids candidate package.fee package.economicBytes)
      ∧ candidateFits (count - (taken.map EvictionPackage.pendingCount).sum)
          (bytes - (taken.map EvictionPackage.pendingBytes).sum) candidateBytes = true := by
  induction packages generalizing count bytes before with
  | nil =>
    unfold evictPackages at h
    split at h
    · rename_i hfits
      obtain rfl := Option.some.inj h
      exact ⟨[], [], rfl, by simp, by simp, by simpa using hfits⟩
    · cases h
  | cons package packages ih =>
    unfold evictPackages at h
    split at h
    · rename_i hfits
      obtain rfl := Option.some.inj h
      exact ⟨[], _, rfl, by simp, by simp, by simpa using hfits⟩
    · split at h
      · cases h
      · rename_i houtbids
        obtain ⟨taken, left, rfl, hmem, hrates, hfits⟩ := ih h
        refine ⟨package :: taken, left, rfl, fun signature => ?_,
          List.forall_mem_cons.mpr ⟨outbids_of_saturating houtbids, hrates⟩, ?_⟩
        · rw [hmem, List.mem_append, List.exists_mem_cons_iff]
          tauto
        · rw [List.map_cons, List.sum_cons, List.map_cons, List.sum_cons, ← Nat.sub_sub,
            ← Nat.sub_sub]
          exact hfits

end Graph

/-! ## Descendants among the orphans -/

section Orphans

/-- One round of `extend_with_orphan_descendants`. -/
def extendOnce (orphans : List Transaction) (evicted : List Str) : List Str :=
  orphans.foldl (fun evicted orphan =>
    if orphan.signature ∉ evicted
        ∧ orphan.inputs.any (fun input => input.outpoint.txid ∈ evicted) then
      orphan.signature :: evicted
    else evicted) evicted

/-- No orphan spends an evicted output and stays. -/
def ClosedUnder (orphans : List Transaction) (evicted : List Str) : Prop :=
  ∀ orphan ∈ orphans, (∃ input ∈ orphan.inputs, input.outpoint.txid ∈ evicted) →
    orphan.signature ∈ evicted

variable {orphans : List Transaction} {evicted added : List Str}

/-- A round adds orphans that were not evicted, and one that adds none has found a closed set. -/
lemma extendOnce_spec (orphans : List Transaction) (evicted : List Str) : ∃ fresh : List Str,
    extendOnce orphans evicted = fresh ++ evicted ∧ fresh.Nodup
      ∧ (∀ signature ∈ fresh, signature ∉ evicted ∧ signature ∈ orphans.map Transaction.signature)
      ∧ (fresh = [] → ClosedUnder orphans evicted) := by
  induction orphans generalizing evicted with
  | nil => exact ⟨[], rfl, List.nodup_nil, by simp, fun _ orphan h => by cases h⟩
  | cons orphan orphans ih =>
    by_cases hspends : orphan.signature ∉ evicted
        ∧ orphan.inputs.any (fun input => input.outpoint.txid ∈ evicted) = true
    · obtain ⟨fresh, hrounds, hnodup, hfresh, -⟩ := ih (orphan.signature :: evicted)
      have hstep : extendOnce (orphan :: orphans) evicted
          = extendOnce orphans (orphan.signature :: evicted) := by
        rw [extendOnce, List.foldl_cons, if_pos hspends, extendOnce]
      have hnew : orphan.signature ∉ fresh := fun hmem =>
        (hfresh _ hmem).1 List.mem_cons_self
      refine ⟨fresh ++ [orphan.signature], ?_, ?_, ?_, fun h => by simp at h⟩
      · rw [hstep, hrounds, List.append_assoc]
        rfl
      · exact List.nodup_append.mpr ⟨hnodup, List.nodup_singleton _, fun a ha b hb heq =>
          hnew (List.mem_singleton.mp hb ▸ heq ▸ ha)⟩
      · refine List.forall_mem_append.mpr ⟨fun signature hmem => ?_, ?_⟩
        · exact ⟨fun hin => (hfresh signature hmem).1 (List.mem_cons_of_mem _ hin),
            List.mem_cons_of_mem _ (hfresh signature hmem).2⟩
        · simpa using hspends.1
    · obtain ⟨fresh, hrounds, hnodup, hfresh, hclosed⟩ := ih evicted
      have hstep : extendOnce (orphan :: orphans) evicted = extendOnce orphans evicted := by
        rw [extendOnce, List.foldl_cons, if_neg hspends, extendOnce]
      refine ⟨fresh, hstep.trans hrounds, hnodup,
        fun signature hmem => ⟨(hfresh signature hmem).1,
          List.mem_cons_of_mem _ (hfresh signature hmem).2⟩, fun hnone => ?_⟩
      refine List.forall_mem_cons.mpr ⟨?_, hclosed hnone⟩
      rintro ⟨input, hinput, htxid⟩
      by_contra hmissing
      exact hspends ⟨hmissing, List.any_eq_true.mpr ⟨input, hinput, by simpa using htxid⟩⟩

/-- With more rounds than orphans the extension ends on a closed set. -/
lemma extendWithOrphanDescendants_spec {fuel : ℕ} (nodup : added.Nodup)
    (mem : ∀ signature ∈ added, signature ∈ evicted
      ∧ signature ∈ orphans.map Transaction.signature)
    (enough : orphans.length < added.length + fuel) :
    ClosedUnder orphans (extendWithOrphanDescendants orphans fuel evicted)
      ∧ ∀ signature, signature ∈ evicted →
        signature ∈ extendWithOrphanDescendants orphans fuel evicted := by
  induction fuel generalizing evicted added with
  | zero =>
    have hlength := (nodup.subperm fun _ h => (mem _ h).2).length_le
    rw [List.length_map] at hlength
    omega
  | succ fuel ih =>
    obtain ⟨fresh, hround, hfreshNodup, hfresh, hclosed⟩ := extendOnce_spec orphans evicted
    unfold extendWithOrphanDescendants
    unfold extendOnce at hround
    dsimp only
    rw [hround]
    by_cases hnone : fresh = []
    · subst hnone
      rw [if_pos (by simp)]
      exact ⟨hclosed rfl, fun _ h => h⟩
    · have hpositive := List.length_pos_iff.mpr hnone
      rw [if_neg (by rw [List.length_append]; omega)]
      have hnext : (fresh ++ added).Nodup := List.nodup_append.mpr ⟨hfreshNodup, nodup,
        fun a ha b hb heq => (hfresh a ha).1 (heq ▸ (mem b hb).1)⟩
      have hmem : ∀ signature ∈ fresh ++ added, signature ∈ fresh ++ evicted
          ∧ signature ∈ orphans.map Transaction.signature := by
        intro signature hin
        rcases List.mem_append.mp hin with hin | hin
        · exact ⟨List.mem_append_left _ hin, (hfresh signature hin).2⟩
        · exact ⟨List.mem_append_right _ (mem signature hin).1, (mem signature hin).2⟩
      obtain ⟨hfinal, hkept⟩ := ih hnext hmem (by rw [List.length_append]; omega)
      exact ⟨hfinal, fun signature h => hkept signature (List.mem_append_right _ h)⟩

/-- What the extension adds are signatures of orphans. -/
lemma mem_extendWithOrphanDescendants {fuel : ℕ} {signature : Str}
    (h : signature ∈ extendWithOrphanDescendants orphans fuel evicted) :
    signature ∈ evicted ∨ signature ∈ orphans.map Transaction.signature := by
  induction fuel generalizing evicted with
  | zero => exact .inl h
  | succ fuel ih =>
    obtain ⟨fresh, hround, -, hfresh, -⟩ := extendOnce_spec orphans evicted
    unfold extendWithOrphanDescendants at h
    unfold extendOnce at hround
    dsimp only at h
    rw [hround] at h
    split at h
    · exact .inl h
    · rcases ih h with hin | hin
      · rcases List.mem_append.mp hin with hin | hin
        · exact .inr (hfresh signature hin).2
        · exact .inl hin
      · exact .inr hin

end Orphans

/-! ## The plan -/

/-- What an eviction plan promises. -/
structure SoundPlan (pending orphans : List Transaction) (candidate : Transaction)
    (candidateBytes : ℕ) (evicted : List Str) : Prop where
  pendingDescendants : ∀ parent ∈ pending, parent.signature ∈ evicted →
    ∀ child ∈ pending, child.SpendsOutputOf parent → child.signature ∈ evicted
  orphanDescendants : ClosedUnder orphans evicted
  ancestors : ∀ ancestor, PendingAncestor pending candidate ancestor → ancestor.signature ∉ evicted
  packages : ∃ packages : List (List Transaction),
    (∀ transaction ∈ pending,
      transaction.signature ∈ evicted ↔ ∃ package ∈ packages, transaction ∈ package)
    ∧ ∀ package ∈ packages, IsPackage pending package
      ∧ Outbids candidate (package.map Transaction.fee).sum
        (package.map Transaction.economicSizeBytes).sum
  count : (pending.filter fun transaction => transaction.signature ∉ evicted).length + 1
    ≤ maxPendingTransactions
  bytes : ((pending.filter fun transaction => transaction.signature ∉ evicted).map
    Transaction.jsonSize).sum + candidateBytes ≤ maxPendingPoolBytes

section Plan

variable {pending orphans : List Transaction} {candidate : Transaction}

lemma mem_transactionsAt {indices : List ℕ} {transaction : Transaction} :
    transaction ∈ transactionsAt pending indices ↔
      ∃ index ∈ indices, pending[index]? = some transaction := by
  rw [transactionsAt, List.mem_filterMap]

/-- A component of positions is a package of transactions. -/
lemma isPackage_transactionsAt (distinct : (pending.map Transaction.signature).Nodup)
    {indices : List ℕ} (inside : ∀ index ∈ indices, index < pending.length)
    (component : Components.IsComponent (pendingEdges pending) indices) :
    IsPackage pending (transactionsAt pending indices) := by
  refine ⟨fun transaction hmem => ?_, fun a ha b hb hdepends => ?_, ?_⟩
  · obtain ⟨index, -, hget⟩ := mem_transactionsAt.mp hmem
    exact List.mem_of_getElem? hget
  · obtain ⟨i, hi, hget⟩ := mem_transactionsAt.mp ha
    obtain ⟨j, hget'⟩ := List.mem_iff_getElem?.mp hb
    have hedge := (mem_pendingEdges distinct).mpr ⟨a, b, hget, hget', hdepends⟩
    exact mem_transactionsAt.mpr ⟨j, component.closed i hi j hedge, hget'⟩
  · obtain ⟨start, hstart, hconnected⟩ := component.connected
    obtain ⟨first, hfirst⟩ : ∃ first, pending[start]? = some first :=
      ⟨_, List.getElem?_eq_getElem (inside start hstart)⟩
    refine ⟨first, mem_transactionsAt.mpr ⟨start, hstart, hfirst⟩, fun transaction hmem => ?_⟩
    obtain ⟨index, hindex, hget⟩ := mem_transactionsAt.mp hmem
    -- a path of positions is a path of their transactions
    have hpath (node : ℕ) (path : Relation.ReflTransGen
        (fun a b => b ∈ pendingEdges pending a) start node) (other : Transaction)
        (hother : pending[node]? = some other) :
        Relation.ReflTransGen Transaction.DependsWith first other := by
      induction path generalizing other with
      | refl =>
        rw [hfirst] at hother
        exact Option.some.inj hother ▸ .refl
      | tail _ hedge ih =>
        obtain ⟨a, b, ha, hb, hdepends⟩ := (mem_pendingEdges distinct).mp hedge
        rw [hother] at hb
        obtain rfl := Option.some.inj hb
        exact (ih a ha).tail hdepends
    exact hpath index (hconnected index hindex) transaction hget

lemma transactionsAt_length {indices : List ℕ} (inside : ∀ index ∈ indices, index < pending.length) :
    (transactionsAt pending indices).length = indices.length := by
  induction indices with
  | nil => rfl
  | cons index indices ih =>
    rw [List.forall_mem_cons] at inside
    have hget := List.getElem?_eq_getElem inside.1
    rw [transactionsAt, List.filterMap_cons_some hget, List.length_cons, List.length_cons,
      ← ih inside.2, transactionsAt]

lemma transactionsAt_nodup (distinct : (pending.map Transaction.signature).Nodup)
    {indices : List ℕ} (nodup : indices.Nodup) : (transactionsAt pending indices).Nodup := by
  refine nodup.filterMap fun i j transaction hi hj => ?_
  rw [Option.mem_def] at hi hj
  obtain ⟨hlt, -⟩ := List.getElem?_eq_some_iff.mp hi
  exact (List.getElem?_inj hlt (List.Nodup.of_map _ distinct)).mp (hi.trans hj.symm)

/-- What a list of packages counts. -/
lemma taken_totals {chosen : List (List ℕ)} {taken : List EvictionPackage}
    (h : List.Forall₂ (fun indices package => evictionPackage pending indices = .ok package)
      chosen taken) :
    (taken.map EvictionPackage.pendingCount).sum = chosen.flatten.length
      ∧ (taken.map EvictionPackage.pendingBytes).sum
        = ((transactionsAt pending chosen.flatten).map Transaction.jsonSize).sum := by
  induction h with
  | nil => exact ⟨rfl, rfl⟩
  | cons hpackage _ ih =>
    have hdescribes := evictionPackage_describes hpackage
    rw [List.map_cons, List.map_cons, List.sum_cons, List.sum_cons, hdescribes.pendingCount,
      hdescribes.pendingBytes, ih.1, ih.2, List.flatten_cons, List.length_append, transactionsAt,
      transactionsAt, transactionsAt, List.filterMap_append, List.map_append, List.sum_append]
    exact ⟨rfl, rfl⟩

/-- An element of one of two related lists has a partner in the other. -/
lemma exists_partner {α β : Type} {R : α → β → Prop} {xs : List α} {ys : List β}
    (h : List.Forall₂ R xs ys) : (∀ x ∈ xs, ∃ y ∈ ys, R x y) ∧ ∀ y ∈ ys, ∃ x ∈ xs, R x y := by
  induction h with
  | nil => simp
  | cons hxy _ ih =>
    refine ⟨List.forall_mem_cons.mpr ⟨⟨_, List.mem_cons_self, hxy⟩, fun x hx => ?_⟩,
      List.forall_mem_cons.mpr ⟨⟨_, List.mem_cons_self, hxy⟩, fun y hy => ?_⟩⟩
    · obtain ⟨y, hy, hrelated⟩ := ih.1 x hx
      exact ⟨y, List.mem_cons_of_mem _ hy, hrelated⟩
    · obtain ⟨x, hx, hrelated⟩ := ih.2 y hy
      exact ⟨x, List.mem_cons_of_mem _ hx, hrelated⟩

/-- The components of which the plan takes the packages. -/
structure Chosen (pending : List Transaction) (candidate : Transaction) (candidateBytes : ℕ)
    (chosen : List (List ℕ)) (evicted : List Str) : Prop where
  components : ∀ indices ∈ chosen, Components.IsComponent (pendingEdges pending) indices
    ∧ protectsCandidate pending candidate indices = false
    ∧ Outbids candidate ((transactionsAt pending indices).map Transaction.fee).sum
      ((transactionsAt pending indices).map Transaction.economicSizeBytes).sum
  nodup : chosen.flatten.Nodup
  inside : ∀ index ∈ chosen.flatten, index < pending.length
  evicted : ∀ signature, signature ∈ evicted ↔ ∃ indices ∈ chosen,
    ∃ transaction ∈ transactionsAt pending indices, transaction.signature = signature
  fits : candidateFits (pending.length - chosen.flatten.length)
    ((pending.map Transaction.jsonSize).sum
      - ((transactionsAt pending chosen.flatten).map Transaction.jsonSize).sum)
    candidateBytes = true

/-- The loop over the sorted packages chooses components. -/
lemma chosen_of_plan (distinct : (pending.map Transaction.signature).Nodup)
    {packages sorted : List EvictionPackage} {candidateBytes : ℕ} {evicted : List Str}
    (hpackages : evictionPackages pending candidate (List.range pending.length) [] = .ok packages)
    (hsorted : packages.Perm sorted)
    (hloop : evictPackages candidate candidateBytes sorted pending.length
      (pending.map Transaction.jsonSize).sum [] = some evicted) :
    ∃ chosen, Chosen pending candidate candidateBytes chosen evicted := by
  have hedges : ∀ a ∈ List.range pending.length, ∀ b ∈ pendingEdges pending a,
      b ∈ List.range pending.length := by
    intro a _ b hb
    obtain ⟨_, _, -, hget, -⟩ := (mem_pendingEdges distinct).mp hb
    exact List.mem_range.mpr (List.getElem?_eq_some_iff.mp hget).1
  have hsymmetric : ∀ a b, b ∈ pendingEdges pending a → a ∈ pendingEdges pending b := by
    intro a b hb
    obtain ⟨x, y, hx, hy, hdepends⟩ := (mem_pendingEdges distinct).mp hb
    exact (mem_pendingEdges distinct).mpr ⟨y, x, hy, hx, hdepends.symm⟩
  have hnone : ∀ a ∈ ([] : List ℕ), ∀ b ∈ pendingEdges pending a, b ∈ ([] : List ℕ) :=
    fun _ h => by cases h
  obtain ⟨hcomponents, hnodup, hinside⟩ := Components.components_spec hedges hsymmetric
    (fun start h => h) hnone List.length_range.le
  obtain ⟨ordered, hperm, hordered⟩ : Relation.Comp List.Perm (List.Forall₂
      fun indices package => evictionPackage pending indices = .ok package) _ sorted := by
    rw [← List.forall₂_comp_perm_eq_perm_comp_forall₂]
    exact ⟨packages, evictionPackages_components hpackages, hsorted⟩
  obtain ⟨taken, left, rfl, hmem, hrates, hfits⟩ := evictPackages_spec hloop
  have htaken := List.forall₂_take_append ordered taken left hordered
  have hfrom : ∀ indices ∈ ordered.take taken.length,
      indices ∈ Components.components (pendingEdges pending) pending.length
        (List.range pending.length) []
      ∧ protectsCandidate pending candidate indices = false := by
    intro indices hindices
    have hfiltered := hperm.mem_iff.mpr (List.mem_of_mem_take hindices)
    rw [List.mem_filter] at hfiltered
    exact ⟨hfiltered.1, by simpa using hfiltered.2⟩
  obtain ⟨hcounts, hbytes⟩ := taken_totals htaken
  rw [hcounts, hbytes] at hfits
  obtain ⟨hpartner, hpartner'⟩ := exists_partner htaken
  refine ⟨ordered.take taken.length, fun indices hindices => ?_, ?_, fun index hindex => ?_,
    fun signature => ?_, hfits⟩
  · obtain ⟨hcomponent, hprotected⟩ := hfrom indices hindices
    obtain ⟨package, hpackage, hrelated⟩ := hpartner indices hindices
    have hdescribes := evictionPackage_describes hrelated
    have hrate := hrates package hpackage
    rw [hdescribes.fee, hdescribes.economicBytes] at hrate
    exact ⟨hcomponents indices hcomponent, hprotected, hrate⟩
  · have hfiltered := hnodup.sublist (List.Sublist.flatten (List.filter_sublist
      (p := fun indices => ¬ protectsCandidate pending candidate indices)))
    exact (hperm.flatten.nodup_iff.mp hfiltered).sublist (List.take_sublist _ _).flatten
  · obtain ⟨indices, hindices, hin⟩ := List.mem_flatten.mp hindex
    have hall := hinside index (List.mem_flatten.mpr ⟨indices, (hfrom indices hindices).1, hin⟩)
    exact List.mem_range.mp hall.2
  · rw [hmem]
    constructor
    · rintro (hin | ⟨package, hpackage, hin⟩)
      · cases hin
      · obtain ⟨indices, hindices, hrelated⟩ := hpartner' package hpackage
        exact ⟨indices, hindices,
          ((evictionPackage_describes hrelated).signatures signature).mp hin⟩
    · rintro ⟨indices, hindices, hin⟩
      obtain ⟨package, hpackage, hrelated⟩ := hpartner indices hindices
      exact .inr ⟨package, hpackage,
        ((evictionPackage_describes hrelated).signatures signature).mpr hin⟩

/-- What stays fits beside the transactions of the chosen components. -/
lemma Chosen.kept_subperm (distinct : (pending.map Transaction.signature).Nodup)
    {candidateBytes : ℕ} {chosen : List (List ℕ)} {evicted : List Str}
    (isChosen : Chosen pending candidate candidateBytes chosen evicted) {final : List Str}
    (extends_ : ∀ signature, signature ∈ evicted → signature ∈ final) :
    (transactionsAt pending chosen.flatten
      ++ pending.filter fun transaction => transaction.signature ∉ final).Subperm pending := by
  have htaken : ∀ transaction ∈ transactionsAt pending chosen.flatten,
      transaction.signature ∈ final ∧ transaction ∈ pending := by
    intro transaction hmem
    obtain ⟨index, hindex, hget⟩ := mem_transactionsAt.mp hmem
    obtain ⟨indices, hindices, hin⟩ := List.mem_flatten.mp hindex
    refine ⟨extends_ _ ((isChosen.evicted _).mpr ⟨indices, hindices, transaction,
      mem_transactionsAt.mpr ⟨index, hin, hget⟩, rfl⟩), List.mem_of_getElem? hget⟩
  refine List.Nodup.subperm (List.nodup_append.mpr ⟨transactionsAt_nodup distinct isChosen.nodup,
    (List.Nodup.of_map _ distinct).filter _, fun a ha b hb heq => ?_⟩) fun transaction hmem => ?_
  · have hkept := List.of_mem_filter hb
    simp only [decide_not, Bool.not_eq_true', decide_eq_false_iff_not] at hkept
    exact hkept (heq ▸ (htaken a ha).1)
  · rcases List.mem_append.mp hmem with hin | hin
    · exact (htaken transaction hin).2
    · exact List.mem_of_mem_filter hin

/-- The plan is sound on pools with distinct signatures. -/
theorem pendingEvictionPlan_sound
    (distinct : ((pending ++ orphans).map Transaction.signature).Nodup) {candidateBytes : ℕ}
    {evicted : List Str}
    (h : pendingEvictionPlan pending orphans candidate candidateBytes = .ok evicted) :
    SoundPlan pending orphans candidate candidateBytes evicted := by
  rw [List.map_append, List.nodup_append] at distinct
  obtain ⟨hdistinct, -, hdisjoint⟩ := distinct
  simp only [pendingEvictionPlan, Outcome.bind_eq_ok, Outcome.pure_eq_ok, orError,
    Outcome.ofOption_eq_ok] at h
  obtain ⟨_, -, packages, hpackages, bytes, hbytes, taken, hloop, rfl⟩ := h
  rw [serializedPoolLen_eq_sum hbytes] at hloop
  obtain ⟨chosen, hchosen⟩ := chosen_of_plan hdistinct hpackages
    (List.mergeSort_perm _ _).symm hloop
  have hextended := @extendWithOrphanDescendants_spec orphans taken [] (orphans.length + 1)
    List.nodup_nil (by simp) (by simp)
  have hevicted : ∀ transaction ∈ pending,
      transaction.signature ∈ extendWithOrphanDescendants orphans (orphans.length + 1) taken ↔
        ∃ indices ∈ chosen, transaction ∈ transactionsAt pending indices := by
    intro transaction hpending
    constructor
    · intro hin
      rcases mem_extendWithOrphanDescendants hin with hin | hin
      · obtain ⟨indices, hindices, other, hother, hsignature⟩ := (hchosen.evicted _).mp hin
        obtain ⟨index, -, hget⟩ := mem_transactionsAt.mp hother
        obtain rfl := List.inj_on_of_nodup_map hdistinct (List.mem_of_getElem? hget) hpending
          hsignature
        exact ⟨indices, hindices, hother⟩
      · exact absurd rfl (hdisjoint _ (List.mem_map_of_mem hpending) _ hin)
    · rintro ⟨indices, hindices, hin⟩
      exact hextended.2 _ ((hchosen.evicted _).mpr ⟨indices, hindices, transaction, hin, rfl⟩)
  have hpackage : ∀ indices ∈ chosen, IsPackage pending (transactionsAt pending indices) :=
    fun indices hindices => isPackage_transactionsAt hdistinct
      (fun index hin => hchosen.inside index (List.mem_flatten.mpr ⟨indices, hindices, hin⟩))
      (hchosen.components indices hindices).1
  have hsubperm := hchosen.kept_subperm hdistinct hextended.2
  refine ⟨?_, hextended.1, ?_, ⟨chosen.map (transactionsAt pending), ?_, ?_⟩, ?_, ?_⟩
  · intro parent hparent hin child hchild hspends
    obtain ⟨indices, hindices, hmem⟩ := (hevicted parent hparent).mp hin
    exact (hevicted child hchild).mpr ⟨indices, hindices,
      (hpackage indices hindices).closed parent hmem child hchild (.inr hspends)⟩
  · intro ancestor hancestor hin
    -- a package with an ancestor has all of the path, down to a parent of the candidate
    induction hancestor with
    | @single parent hparent =>
      obtain ⟨indices, hindices, hmem⟩ := (hevicted parent hparent.1).mp hin
      obtain ⟨index, hindex, hget⟩ := mem_transactionsAt.mp hmem
      obtain ⟨input, hinput, htxid⟩ := hparent.2
      have hprotected : protectsCandidate pending candidate indices = true :=
        List.any_eq_true.mpr ⟨index, hindex, List.any_eq_true.mpr ⟨input, hinput, by
          simpa using (pendingIndex_eq_some hdistinct).mpr ⟨parent, hget, htxid.symm⟩⟩⟩
      rw [(hchosen.components indices hindices).2.1] at hprotected
      cases hprotected
    | @tail child parent hpath hparent ih =>
      have hchild : child ∈ pending := by
        cases hpath with
        | single hstep => exact hstep.1
        | tail _ hstep => exact hstep.1
      obtain ⟨indices, hindices, hmem⟩ := (hevicted parent hparent.1).mp hin
      exact ih ((hevicted child hchild).mpr ⟨indices, hindices,
        (hpackage indices hindices).closed parent hmem child hchild (.inr hparent.2)⟩)
  · intro transaction hpending
    rw [hevicted transaction hpending]
    simp only [List.mem_map, exists_exists_and_eq_and]
  · rw [List.forall_mem_map]
    exact fun indices hindices => ⟨hpackage indices hindices,
      (hchosen.components indices hindices).2.2⟩
  · have hlength := hsubperm.length_le
    have hfits := hchosen.fits
    rw [List.length_append, transactionsAt_length hchosen.inside] at hlength
    simp only [candidateFits, Bool.decide_and, Bool.and_eq_true, decide_eq_true_eq] at hfits
    omega
  · obtain ⟨middle, hperm, hsublist⟩ := hsubperm
    have hsum := (hsublist.map Transaction.jsonSize).sum_le_sum fun _ _ => Nat.zero_le _
    have hfits := hchosen.fits
    rw [(hperm.map Transaction.jsonSize).sum_eq, List.map_append, List.sum_append] at hsum
    simp only [candidateFits, Bool.decide_and, Bool.and_eq_true, decide_eq_true_eq] at hfits
    omega

end Plan

end Iuna
