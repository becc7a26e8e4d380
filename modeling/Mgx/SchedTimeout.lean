import Mgx.Coroutine

/-
  How long the scheduler waits.

  Before it waits for sockets, `schedule` asks `get_epoll_wait_timeout_ms` for how
  long. One call of `schedule` resumes one sleeper and one ready coroutine, so others
  may be left that could run at once.

  Correspondence (C++ ↔ Lean), `misc/mgx_coroutine_scheduler.cpp`:
    `MGX_CO_SCHEDULER_EPOLL_WAIT_TIMEOUT`        ↔ `coEpollWaitTimeout`
    `get_epoll_wait_timeout_ms`                  ↔ `Sched.getEpollWaitTimeoutMs`

  `now` is what `get_now_ms` returns; with a ready coroutine, or without a sleeper, the
  clock is not read.

  What is proved: `timeout_right_iff`. The scheduler waits no longer than it may exactly
  when it has nothing to run: no coroutine is ready, and no sleeper is due.
-/
namespace Mgx
open Runs

/-- `MGX_CO_SCHEDULER_EPOLL_WAIT_TIMEOUT`. -/
def coEpollWaitTimeout : Int := 200

/-- `get_epoll_wait_timeout_ms`. -/
def Sched.getEpollWaitTimeoutMs (s : Sched) (now : Int) : Int :=
  match s.sleepTree, s.readyList with
  | (sleepMs, _) :: _, [] =>
    if sleepMs > now then min (sleepMs - now) coEpollWaitTimeout else coEpollWaitTimeout
  | _, _ => coEpollWaitTimeout

/-- A coroutine could run now: one is ready, or the first of the sleepers is due. -/
def Sched.Runnable (s : Sched) (now : Int) : Prop :=
  s.readyList ≠ [] ∨ ∃ e ∈ s.sleepTree.head?, e.1 ≤ now

/-- Waiting this long keeps no coroutine from running: not at all while one could, and else no
longer than to the first deadline and the default. -/
def Sched.TimeoutRight (s : Sched) (now timeout : Int) : Prop :=
  (s.Runnable now → timeout = 0) ∧
    (¬ s.Runnable now → (∀ e ∈ s.sleepTree.head?, timeout ≤ e.1 - now) ∧
      timeout ≤ coEpollWaitTimeout)

section
variable {s : Sched} {now : Int}

/-- With a coroutine that could run, the default. -/
theorem Sched.timeout_of_runnable (h : s.Runnable now) :
    s.getEpollWaitTimeoutMs now = coEpollWaitTimeout := by
  unfold getEpollWaitTimeoutMs
  split
  next sleepMs c rest htree hready =>
    rcases h with h | ⟨e, he, hdue⟩
    · exact absurd hready h
    · rw [htree] at he
      obtain rfl : (sleepMs, c) = e := Option.some.inj he
      exact if_neg (Int.not_lt.mpr hdue)
  next => rfl

/-- With none, what is left until the first deadline, cut off at the default. -/
theorem Sched.timeout_of_not_runnable (h : ¬ s.Runnable now) :
    (∀ e ∈ s.sleepTree.head?, s.getEpollWaitTimeoutMs now ≤ e.1 - now) ∧
      s.getEpollWaitTimeoutMs now ≤ coEpollWaitTimeout := by
  have hready : s.readyList = [] := by
    by_contra hne
    exact h (.inl hne)
  unfold getEpollWaitTimeoutMs
  cases htree : s.sleepTree with
  | nil => exact ⟨fun e he => (Option.not_mem_none e he).elim, by simp⟩
  | cons first rest =>
    have hfuture : first.1 > now := by
      by_contra hdue
      exact h (.inr ⟨first, by rw [htree]; rfl, Int.not_lt.mp hdue⟩)
    rw [hready]
    simp only [hfuture, if_true]
    refine ⟨fun e he => ?_, Int.min_le_right _ _⟩
    obtain rfl : first = e := Option.some.inj he
    exact Int.min_le_left _ _

end

/-- **When the scheduler does not wait past runnable work.** For every ready list, sleep tree and
reading of the clock: exactly when no coroutine is ready and no sleeper is due. -/
theorem timeout_right_iff (s : Sched) (now : Int) :
    s.TimeoutRight now (s.getEpollWaitTimeoutMs now) ↔
      s.readyList = [] ∧ ∀ e ∈ s.sleepTree.head?, now < e.1 := by
  have hcond : (s.readyList = [] ∧ ∀ e ∈ s.sleepTree.head?, now < e.1) ↔ ¬ s.Runnable now := by
    unfold Sched.Runnable
    rw [not_or, not_not]
    refine and_congr_right fun _ => ⟨?_, ?_⟩
    · rintro hfuture ⟨e, he, hdue⟩
      exact Int.not_lt.mpr hdue (hfuture e he)
    · intro hnone e he
      by_contra hdue
      exact hnone ⟨e, he, Int.not_lt.mp hdue⟩
  rw [hcond]
  constructor
  · intro hright hrunnable
    have hzero := hright.1 hrunnable
    rw [Sched.timeout_of_runnable hrunnable] at hzero
    exact absurd hzero (by decide)
  · intro hnot
    exact ⟨fun hrunnable => absurd hrunnable hnot, fun _ => Sched.timeout_of_not_runnable hnot⟩

/-- Two coroutines are created, and the first yields: both are ready, and `schedule` waits for 200 ms.
Two coroutines sleep to the same time: `schedule` resumes one, and waits for 200 ms before it can come
to the other, which is due. -/
theorem timeout_past_runnable :
    (∃ s, run Sched.step Sched.start [.create, .create, .schedule 0, .ready, .yield] = some s ∧
      s.phase = .atPoll ∧ s.readyList = [1, 0] ∧
      ¬ s.TimeoutRight 0 (s.getEpollWaitTimeoutMs 0)) ∧
    ∃ s, run Sched.step Sched.start [.create, .create, .schedule 0, .ready, .msleep 0 10, .poll [],
        .event, .schedule 0, .ready, .msleep 0 10, .poll [], .event, .schedule 10, .exit,
        .ready] = some s ∧
      s.phase = .atPoll ∧ s.sleepTree = [(10, 1)] ∧
      ¬ s.TimeoutRight 10 (s.getEpollWaitTimeoutMs 10) := by
  refine ⟨⟨_, rfl, rfl, rfl, fun hright => ?_⟩, ⟨_, rfl, rfl, rfl, fun hright => ?_⟩⟩
  · exact absurd (hright.1 (.inl (List.cons_ne_nil _ _))) (by decide)
  · exact absurd (hright.1 (.inr ⟨(10, 1), rfl, by decide⟩)) (by decide)

end Mgx
