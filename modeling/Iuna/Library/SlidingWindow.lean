import Mathlib

/-!
# Sliding windows

A queue of times that drops its oldest times as they leave a window.  The queue `Keeps` a history
if, at every later time, what is left of it is what the history has in the window; then its length
is the number of events in the window.  A history that takes an event only below a cap has at most
so many events in every window (`AtMost`).
-/

namespace SlidingWindow

variable {width clock now cap time : ℕ} {queue history : List ℕ}

/-- A time that has left the window at `now`. -/
def stale (width now time : ℕ) : Bool := width ≤ now - time

/-- A queue without its oldest times, as far as they have left the window. -/
def prune (width now : ℕ) (queue : List ℕ) : List ℕ := queue.dropWhile (stale width now)

/-- The times of a history in the window. -/
def fresh (width now : ℕ) (history : List ℕ) : List ℕ := history.filter fun time =>
  !stale width now time

/-- From a time on, a queue is left with the times of the history in the window. -/
structure Keeps (width clock : ℕ) (queue history : List ℕ) : Prop where
  past : ∀ time ∈ queue, time ≤ clock
  window : ∀ now, clock ≤ now → prune width now queue = fresh width now history

/-- No window has more than a number of times of a history. -/
def AtMost (width cap : ℕ) (history : List ℕ) : Prop :=
  ∀ start, history.countP (fun time => start ≤ time ∧ time < start + width) ≤ cap

lemma stale_later (later : clock ≤ now) (h : stale width clock time = true) :
    stale width now time = true := by
  simp only [stale, decide_eq_true_eq] at h ⊢
  omega

lemma fresh_of_le {earlier : ℕ} (le : earlier ≤ time) (h : stale width now earlier = false) :
    stale width now time = false := by
  simp only [stale, decide_eq_false_iff_not] at h ⊢
  omega

lemma prune_prune (later : clock ≤ now) (queue : List ℕ) :
    prune width now (prune width clock queue) = prune width now queue := by
  induction queue with
  | nil => rfl
  | cons time queue ih =>
    by_cases hclock : stale width clock time = true
    · have hnow := stale_later later hclock
      simp only [prune, List.dropWhile_cons, hclock, hnow, if_true] at ih ⊢
      exact ih
    · simp only [prune, List.dropWhile_cons, hclock, Bool.false_eq_true, if_false]

lemma Keeps.nil (width clock : ℕ) : Keeps width clock [] [] := ⟨by simp, fun _ _ => rfl⟩

lemma Keeps.later (h : Keeps width clock queue history) (later : clock ≤ now) :
    Keeps width now queue history :=
  ⟨fun time htime => (h.past time htime).trans later,
    fun time htime => h.window time (later.trans htime)⟩

/-- A queue may be pruned at any time that has come. -/
lemma Keeps.prune (h : Keeps width clock queue history) :
    Keeps width clock (prune width clock queue) history := by
  refine ⟨fun time htime => h.past time (List.dropWhile_subset _ htime), fun now later => ?_⟩
  rw [prune_prune later, h.window now later]

/-- A new time joins the queue and the history. -/
lemma Keeps.push (h : Keeps width clock queue history) :
    Keeps width clock (queue ++ [clock]) (history ++ [clock]) := by
  refine ⟨?_, fun now later => ?_⟩
  · intro time htime
    rcases List.mem_append.mp htime with hold | hnew
    · exact h.past time hold
    · exact (List.mem_singleton.mp hnew).le
  · rw [fresh, List.filter_append, ← fresh, ← h.window now later, SlidingWindow.prune,
      SlidingWindow.prune, List.dropWhile_append]
    cases hleft : queue.dropWhile (stale width now) with
    | nil =>
      by_cases hstale : stale width now clock = true <;> simp [hstale]
    | cons head tail =>
      -- the oldest time left is fresh, so the new one is
      have hhead : stale width now head = false := by
        have := List.head_dropWhile_not (stale width now) (l := queue) (by simp [hleft])
        simpa [hleft] using this
      have hmem : head ∈ queue := List.dropWhile_subset _ (hleft ▸ List.mem_cons_self)
      have hnew := fresh_of_le (h.past head hmem) hhead
      simp [hnew]

/-- The length of a pruned queue. -/
lemma Keeps.length (h : Keeps width clock queue history) :
    (SlidingWindow.prune width clock queue).length = (fresh width clock history).length := by
  rw [h.window clock le_rfl]

/-- A time is taken where the window that ends there has room. -/
lemma AtMost.push (h : AtMost width cap history) (past : ∀ time ∈ history, time ≤ now)
    (room : (fresh width now history).length < cap) : AtMost width cap (history ++ [now]) := by
  intro start
  rw [List.countP_append]
  by_cases hwindow : start ≤ now ∧ now < start + width
  · have hle : history.countP (fun time => start ≤ time ∧ time < start + width)
        ≤ (fresh width now history).length := by
      rw [fresh, ← List.countP_eq_length_filter]
      refine List.countP_mono_left fun time htime hin => ?_
      have := past time htime
      simp only [decide_eq_true_eq, stale, Bool.not_eq_true', decide_eq_false_iff_not] at hin ⊢
      omega
    have hone : [now].countP (fun time => start ≤ time ∧ time < start + width) ≤ 1 :=
      List.countP_le_length
    omega
  · have hzero : [now].countP (fun time => start ≤ time ∧ time < start + width) = 0 := by
      simpa using hwindow
    rw [hzero]
    exact h start

end SlidingWindow
