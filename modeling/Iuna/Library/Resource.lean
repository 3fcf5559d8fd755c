import Iuna.Library.MapSum
import Iuna.Library.Runs

/-!
# A strict resource machine

The state is a finite map from keys to values.  An effect either *takes* an entry that is present
or *puts* an entry whose key is absent; nothing else can happen, in particular no entry is ever
overwritten and nothing absent is ever taken.  A program that moves value around is shown to be a
run of this machine, and then inherits its accounting:

* `run_total` — whatever the weight of an entry, what a run puts in and what it takes out explain
  the change of the total;
* `takes_le_puts` — for every key, the takes and the puts of a run alternate, so a key is taken at
  most once after each time it was put.  This needs less: it holds as well of runs that may
  overwrite (`WriteStep`).
-/

namespace Resource

open Std Runs

universe u v

variable {κ : Type u} {ν : Type v} {cmp : κ → κ → Ordering}

/-- One change of the map: an entry leaves it, or a new entry enters it. -/
inductive Effect (κ : Type u) (ν : Type v)
  | take (k : κ) (v : ν)
  | put (k : κ) (v : ν)

/-- What an effect requires and what it does. -/
inductive Step [TransCmp cmp] :
    ExtTreeMap κ ν cmp → Effect κ ν → ExtTreeMap κ ν cmp → Prop
  | take {m : ExtTreeMap κ ν cmp} {k : κ} {v : ν} (present : m[k]? = some v) :
      Step m (.take k v) (m.erase k)
  | put {m : ExtTreeMap κ ν cmp} {k : κ} {v : ν} (absent : k ∉ m) :
      Step m (.put k v) (m.insert k v)

/-- The weight a list of effects puts into the map. -/
def putWeight (w : κ → ν → ℕ) : List (Effect κ ν) → ℕ
  | [] => 0
  | .take _ _ :: effects => putWeight w effects
  | .put k v :: effects => w k v + putWeight w effects

/-- The weight a list of effects takes out of the map. -/
def takeWeight (w : κ → ν → ℕ) : List (Effect κ ν) → ℕ
  | [] => 0
  | .take k v :: effects => w k v + takeWeight w effects
  | .put _ _ :: effects => takeWeight w effects

variable {w : κ → ν → ℕ} {es es' : List (Effect κ ν)}

@[simp] lemma putWeight_append :
    putWeight w (es ++ es') = putWeight w es + putWeight w es' := by
  induction es with
  | nil => simp [putWeight]
  | cons e es ih =>
    cases e with
    | take k v => simpa [putWeight] using ih
    | put k v => simp [putWeight, ih, Nat.add_assoc]

@[simp] lemma takeWeight_append :
    takeWeight w (es ++ es') = takeWeight w es + takeWeight w es' := by
  induction es with
  | nil => simp [takeWeight]
  | cons e es ih =>
    cases e with
    | take k v => simp [takeWeight, ih, Nat.add_assoc]
    | put k v => simpa [takeWeight] using ih

variable [TransCmp cmp] [LawfulEqCmp cmp] {m m' : ExtTreeMap κ ν cmp}

/-- **Accounting.** The total after a run and what the run took out equal the total before it and
what the run put in. -/
theorem run_total (run : Run Step m es m') :
    MapSum.total w m' + takeWeight w es = MapSum.total w m + putWeight w es := by
  induction run with
  | nil => simp [putWeight, takeWeight]
  | cons head _ ih =>
    cases head with
    | take present =>
      have herase := MapSum.total_erase (w := w) present
      simp only [putWeight, takeWeight]
      omega
    | @put k v absent =>
      have hinsert := MapSum.total_insert_of_not_mem (w := w) (v := v) absent
      simp only [putWeight, takeWeight]
      omega

/-! ## Alternation of takes and puts

An effect without its value is an action.  Along a run the actions on one key alternate, and this
holds also of a machine that puts without looking whether the key is present.
-/

/-- An effect without the value it moves. -/
inductive Action (κ : Type u)
  | take (k : κ)
  | put (k : κ)
  deriving DecidableEq

/-- The action of an effect. -/
def Effect.action : Effect κ ν → Action κ
  | .take k _ => .take k
  | .put k _ => .put k

/-- A step that may overwrite what it puts. -/
inductive WriteStep :
    ExtTreeMap κ ν cmp → Effect κ ν → ExtTreeMap κ ν cmp → Prop
  | take {m : ExtTreeMap κ ν cmp} {k : κ} {v : ν} (present : m[k]? = some v) :
      WriteStep m (.take k v) (m.erase k)
  | put {m : ExtTreeMap κ ν cmp} {k : κ} {v : ν} : WriteStep m (.put k v) (m.insert k v)

omit [LawfulEqCmp cmp] in
lemma Step.write {e : Effect κ ν} (step : Step m e m') : WriteStep m e m' := by
  cases step with
  | take present => exact .take present
  | put absent => exact .put

omit [LawfulEqCmp cmp] in
lemma run_write (run : Run Step m es m') : Run WriteStep m es m' :=
  run.mono fun _ _ _ => Step.write

/-- **Alternation.** Whether a key is present counts as one more put before a run and as one more
take after it; so counted, a key is never taken more often than it is put. -/
theorem takes_le_puts [DecidableEq κ] (run : Run WriteStep m es m') (k : κ) :
    (es.map Effect.action).count (.take k) + (if k ∈ m' then 1 else 0)
      ≤ (es.map Effect.action).count (.put k) + if k ∈ m then 1 else 0 := by
  induction run with
  | nil => simp
  | @cons m _ _ _ _ head _ ih =>
    cases head with
    | @take k' v present =>
      have hmem : k' ∈ m := by
        rw [ExtTreeMap.mem_iff_isSome_getElem?, present]
        rfl
      by_cases hk : k' = k
      · subst hk
        have herased : k' ∉ m.erase k' := by simp
        simp only [herased, if_false] at ih
        simp only [List.map_cons, Effect.action, List.count_cons_self, hmem, if_true]
        rw [List.count_cons_of_ne (by simp)]
        omega
      · have hsame : k ∈ m.erase k' ↔ k ∈ m := by
          rw [ExtTreeMap.mem_erase]
          refine and_iff_right ?_
          rw [Ne, LawfulEqCmp.compare_eq_iff_eq]
          exact hk
        simp only [hsame] at ih
        rw [List.map_cons, Effect.action, List.count_cons_of_ne (by simpa using hk),
          List.count_cons_of_ne (by simp)]
        exact ih
    | @put k' v =>
      by_cases hk : k' = k
      · subst hk
        simp only [ExtTreeMap.mem_insert_self, if_true] at ih
        rw [List.map_cons, Effect.action, List.count_cons_self, List.count_cons_of_ne (by simp)]
        omega
      · have hsame : k ∈ m.insert k' v ↔ k ∈ m := by
          rw [ExtTreeMap.mem_insert]
          refine or_iff_right ?_
          rw [LawfulEqCmp.compare_eq_iff_eq]
          exact hk
        simp only [hsame] at ih
        rw [List.map_cons, Effect.action, List.count_cons_of_ne (by simp),
          List.count_cons_of_ne (by simpa using hk)]
        exact ih

/-- Between two takes of a key it is put: no stretch of the actions of a run takes a key more than
once more than it puts it. -/
theorem takes_le_puts_infix [DecidableEq κ] (run : Run WriteStep m es m')
    {actions : List (Action κ)} (stretch : actions <:+: es.map Effect.action) (k : κ) :
    actions.count (.take k) ≤ actions.count (.put k) + 1 := by
  obtain ⟨before, after, hsplit⟩ := stretch
  obtain ⟨start, after', rfl, hstart, -⟩ := List.map_eq_append_iff.mp hsplit.symm
  obtain ⟨before', middle, rfl, -, rfl⟩ := List.map_eq_append_iff.mp hstart
  obtain ⟨_, first, -⟩ := run_append_iff.mp run
  obtain ⟨_, -, second⟩ := run_append_iff.mp first
  have hcount := takes_le_puts second k
  split at hcount <;> split at hcount <;> omega

/-! ## Many takes, many puts -/

/-- Take every entry of a list. -/
def takesOf (entries : List (κ × ν)) : List (Effect κ ν) :=
  entries.map fun entry => .take entry.1 entry.2

/-- Put every entry of a list. -/
def putsOf (entries : List (κ × ν)) : List (Effect κ ν) :=
  entries.map fun entry => .put entry.1 entry.2

section Bulk

variable (w) (entries : List (κ × ν))

@[simp] lemma putWeight_takesOf : putWeight w (takesOf entries) = 0 := by
  induction entries with
  | nil => rfl
  | cons entry entries ih => simpa [takesOf, putWeight] using ih

@[simp] lemma takeWeight_takesOf :
    takeWeight w (takesOf entries) = (entries.map fun entry => w entry.1 entry.2).sum := by
  induction entries with
  | nil => rfl
  | cons entry entries ih => simpa [takesOf, takeWeight] using ih

@[simp] lemma putWeight_putsOf :
    putWeight w (putsOf entries) = (entries.map fun entry => w entry.1 entry.2).sum := by
  induction entries with
  | nil => rfl
  | cons entry entries ih => simpa [putsOf, putWeight] using ih

@[simp] lemma takeWeight_putsOf : takeWeight w (putsOf entries) = 0 := by
  induction entries with
  | nil => rfl
  | cons entry entries ih => simpa [putsOf, takeWeight] using ih

@[simp] lemma map_action_takesOf :
    (takesOf entries).map Effect.action = entries.map fun entry => .take entry.1 := by
  simp [takesOf, Effect.action]

@[simp] lemma map_action_putsOf :
    (putsOf entries).map Effect.action = entries.map fun entry => .put entry.1 := by
  simp [putsOf, Effect.action]

end Bulk

omit [LawfulEqCmp cmp] in
/-- Inserting entries one after another is a run of puts, which may overwrite. -/
lemma run_write_putsOf (entries : List (κ × ν)) (m : ExtTreeMap κ ν cmp) :
    Run WriteStep m (putsOf entries) (entries.foldl (fun m entry => m.insert entry.1 entry.2) m) := by
  induction entries generalizing m with
  | nil => exact .nil m
  | cons entry entries ih => exact .cons .put (ih _)

/-- Inserting entries under distinct new keys overwrites nothing. -/
lemma run_putsOf {entries : List (κ × ν)} {m : ExtTreeMap κ ν cmp}
    (distinct : (entries.map Prod.fst).Nodup) (absent : ∀ entry ∈ entries, entry.1 ∉ m) :
    Run Step m (putsOf entries) (entries.foldl (fun m entry => m.insert entry.1 entry.2) m) := by
  induction entries generalizing m with
  | nil => exact .nil m
  | cons entry entries ih =>
    obtain ⟨hhead, htail⟩ := List.nodup_cons.mp distinct
    refine .cons (.put (absent entry List.mem_cons_self)) (ih htail ?_)
    intro other hother hmem
    rcases ExtTreeMap.mem_insert.mp hmem with hsame | hmem
    · rw [LawfulEqCmp.compare_eq_iff_eq] at hsame
      exact hhead (hsame ▸ List.mem_map_of_mem hother)
    · exact absent other (List.mem_cons_of_mem _ hother) hmem

/-- What a run leaves was there before it, or was put by it. -/
lemma mem_of_run (run : Run WriteStep m es m') {k : κ} (h : k ∈ m') :
    k ∈ m ∨ ∃ v, Effect.put k v ∈ es := by
  induction run with
  | nil => exact .inl h
  | cons head _ ih =>
    rcases ih h with hmem | ⟨v, hput⟩
    · cases head with
      | take present => exact .inl (ExtTreeMap.mem_erase.mp hmem).2
      | @put k' v =>
        rcases ExtTreeMap.mem_insert.mp hmem with hsame | hmem
        · rw [LawfulEqCmp.compare_eq_iff_eq] at hsame
          exact .inr ⟨v, by simp [hsame]⟩
        · exact .inl hmem
    · exact .inr ⟨v, List.mem_cons_of_mem _ hput⟩

/-- What a strict run does not take stays. -/
lemma getElem?_of_run (run : Run Step m es m') {k : κ} {v : ν} (h : m[k]? = some v)
    (notTaken : Action.take k ∉ es.map Effect.action) : m'[k]? = some v := by
  induction run with
  | nil => exact h
  | cons head _ ih =>
    simp only [List.map_cons, List.mem_cons, not_or] at notTaken
    refine ih ?_ notTaken.2
    cases head with
    | @take k' v' present =>
      have hne : cmp k' k ≠ .eq := fun heq =>
        notTaken.1 (by rw [LawfulEqCmp.eq_of_compare heq]; rfl)
      rw [ExtTreeMap.getElem?_erase, if_neg hne, h]
    | @put k' v' absent =>
      have hne : cmp k' k ≠ .eq := fun heq => absent (by
        rw [LawfulEqCmp.eq_of_compare heq, ExtTreeMap.mem_iff_isSome_getElem?, h]
        rfl)
      rw [ExtTreeMap.getElem?_insert, if_neg hne, h]

omit [LawfulEqCmp cmp] in
/-- What a list of takes takes was there before the first of them. -/
lemma getElem?_of_takesOf {entries : List (κ × ν)} (run : Run Step m (takesOf entries) m') :
    ∀ entry ∈ entries, m[entry.1]? = some entry.2 := by
  induction entries generalizing m with
  | nil => simp
  | cons entry entries ih =>
    obtain ⟨_, head, tail⟩ := run_cons_iff.mp run
    cases head with
    | take present =>
      intro other hother
      rcases List.mem_cons.mp hother with rfl | hother
      · exact present
      · have hafter := ih tail other hother
        rw [ExtTreeMap.getElem?_erase] at hafter
        split at hafter
        · cases hafter
        · exact hafter

/-- What a strict run removes, it takes. -/
lemma take_of_removed (run : Run Step m es m') {k : κ} {v : ν} (h : m[k]? = some v)
    (removed : m'[k]? ≠ some v) : Action.take k ∈ es.map Effect.action := by
  by_contra hnot
  exact removed (getElem?_of_run run h hnot)

/-- What a strict run removes by takes and puts is among the entries taken. -/
lemma mem_of_removed {entries created : List (κ × ν)}
    (run : Run Step m (takesOf entries ++ putsOf created) m') {k : κ} {v : ν}
    (h : m[k]? = some v) (removed : m'[k]? ≠ some v) : (k, v) ∈ entries := by
  have htake := take_of_removed run h removed
  rw [List.map_append, map_action_takesOf, map_action_putsOf, List.mem_append] at htake
  rcases htake with htake | htake
  · obtain ⟨entry, hentry, heq⟩ := List.mem_map.mp htake
    obtain rfl : entry.1 = k := by simpa using heq
    obtain ⟨_, takes, -⟩ := run_append_iff.mp run
    have hvalue := getElem?_of_takesOf takes entry hentry
    rw [h] at hvalue
    obtain rfl := Option.some.inj hvalue
    exact hentry
  · simp at htake

/-- Inserting entries leaves every other key as it was. -/
lemma getElem?_foldl_insert {entries : List (κ × ν)} {m : ExtTreeMap κ ν cmp} {k : κ}
    (other : ∀ entry ∈ entries, entry.1 ≠ k) :
    (entries.foldl (fun m entry => m.insert entry.1 entry.2) m)[k]? = m[k]? := by
  induction entries generalizing m with
  | nil => rfl
  | cons entry entries ih =>
    have hne : cmp entry.1 k ≠ .eq := fun heq =>
      other entry List.mem_cons_self (LawfulEqCmp.eq_of_compare heq)
    rw [List.foldl_cons, ih fun e he => other e (List.mem_cons_of_mem _ he),
      ExtTreeMap.getElem?_insert, if_neg hne]

/-- What is left after erasing some keys was there, under another key. -/
lemma getElem?_foldl_erase {entries : List (κ × ν)} {ν' : Type v} {m : ExtTreeMap κ ν' cmp} {k : κ}
    {v : ν'} (h : (entries.foldl (fun m entry => m.erase entry.1) m)[k]? = some v) :
    m[k]? = some v ∧ k ∉ entries.map Prod.fst := by
  induction entries generalizing m with
  | nil => exact ⟨h, by simp⟩
  | cons entry entries ih =>
    obtain ⟨hbefore, hrest⟩ := ih h
    rw [ExtTreeMap.getElem?_erase] at hbefore
    split at hbefore
    · cases hbefore
    · rename_i hne
      refine ⟨hbefore, ?_⟩
      rw [List.map_cons, List.mem_cons, not_or]
      exact ⟨fun heq => hne (by rw [heq]; exact ReflCmp.compare_self), hrest⟩

end Resource
