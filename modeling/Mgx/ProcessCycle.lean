import Mathlib.Tactic.SplitIfs
import Mgx.Lib.Runs

/-
  The master process and its workers.

  SIGCHLD is blocked except inside `sigsuspend`, and pending ones are one. Its
  handler reaps all dead workers in a loop and sets one flag, for which the main
  loop starts one worker. SIGCHLD also comes for a worker that is stopped or
  continued, as there is no SA_NOCLDSTOP.

  Correspondence (C++ ↔ Lean):
    where the master is in `mgx_process_cycle` and in its
      handler (process/mgx_process_cycle.cpp)             ↔ `MasterAt`
    its next statement                                    ↔ `Master.advance`
    `waitpid(-1, &status, WNOHANG)` in the loop of
      `mgx_process_get_status` (signal/mgx_signal.cpp)    ↔ `MasterAt.waiting`
    `g_mgx_reap`                                          ↔ `Master.reap`
    `default_handler` of SIGCHLD starts                   ↔ `MasterAct.deliver`
    a handler of another signal runs                      ↔ `MasterAct.signal`

  `fork` is taken to succeed. Workers are told apart by their state only; the
  numbers they are given and the log are left out.

  What is proved: `workers_supervised`. The number of workers is right whenever
  the master goes back to `sigsuspend`, as long as every SIGCHLD is delivered when
  exactly one worker is missing and none dies during the loop of `waitpid`.
-/
namespace Mgx
open Runs

/-- Where the master is: forking the first workers; in `sigsuspend`, in which a handler has run or
not; in the loop of `waitpid`; before `g_mgx_reap = true`; after `sigsuspend`; before the `fork` of
a new worker. -/
inductive MasterAt where
  | starting (left : Nat)
  | suspended (woken : Bool)
  | waiting
  | noting
  | resumed
  | spawning
  deriving DecidableEq, Repr

/-- The workers by their state, and what the master knows. `reaped` and `spawned` are histories: how
many workers have been reaped, and how many started in the main loop. -/
structure Master where
  phase : MasterAt
  running : Nat
  stopped : Nat
  dead : Nat
  pending : Bool
  reap : Bool
  reaped : Nat
  spawned : Nat
  deriving Repr

/-- The next statement of the master. -/
def Master.advance (s : Master) : MasterAt → Option Master
  | .starting (k + 1) => some { s with phase := .starting k, running := s.running + 1 }
  | .starting 0 => some { s with phase := .suspended false }
  | .suspended false => none
  | .suspended true => some { s with phase := .resumed }
  | .waiting =>
    -- one dead worker is reaped, or `waitpid` returns 0 and the loop ends
    if 0 < s.dead then some { s with dead := s.dead - 1, reaped := s.reaped + 1 }
    else some { s with phase := .noting }
  -- set even when nothing was reaped
  | .noting => some { s with phase := .suspended true, reap := true }
  | .resumed =>
    if s.reap then some { s with phase := .spawning, reap := false }
    else some { s with phase := .suspended false }
  | .spawning => some { s with
      phase := .suspended false, running := s.running + 1, spawned := s.spawned + 1 }

/-- What can happen: the master goes on; a worker exits, or dies while it is stopped, or is stopped,
or continued; SIGCHLD is delivered; another signal is handled. -/
inductive MasterAct where
  | master
  | exit
  | kill
  | stop
  | cont
  | deliver
  | signal
  deriving DecidableEq, Repr

def MasterAt.inSuspend : MasterAt → Bool
  | .suspended _ => true
  | _ => false

/-- One step. -/
def Master.step (s : Master) : MasterAct → Option Master
  | .master => s.advance s.phase
  | .exit =>
    if 0 < s.running then
      some { s with running := s.running - 1, dead := s.dead + 1, pending := true }
    else none
  | .kill =>
    if 0 < s.stopped then
      some { s with stopped := s.stopped - 1, dead := s.dead + 1, pending := true }
    else none
  | .stop =>
    if 0 < s.running then
      some { s with running := s.running - 1, stopped := s.stopped + 1, pending := true }
    else none
  | .cont =>
    if 0 < s.stopped then
      some { s with stopped := s.stopped - 1, running := s.running + 1, pending := true }
    else none
  | .deliver =>
    if s.phase.inSuspend ∧ s.pending then some { s with phase := .waiting, pending := false }
    else none
  | .signal => if s.phase.inSuspend then some { s with phase := .suspended true } else none

/-- Before `mgx_start_worker_process`, with `WorkerProcesses` = `n`. -/
def Master.start (n : Nat) : Master where
  phase := .starting n
  running := 0
  stopped := 0
  dead := 0
  pending := false
  reap := false
  reaped := 0
  spawned := 0

/-- The workers there are, dead ones included until they are reaped. -/
def Master.workers (s : Master) : Nat := s.running + s.stopped + s.dead

/-- SIGCHLD is delivered when one worker, dead or reaped, has not been replaced, and no worker dies
while the handler reaps. -/
def OneMissing (s : Master) : MasterAct → Prop
  | .deliver => s.dead + s.reaped = s.spawned + 1
  | .exit => s.phase ≠ .waiting
  | .kill => s.phase ≠ .waiting
  | .master => True
  | .stop => True
  | .cont => True
  | .signal => True

instance (s : Master) : ∀ act, Decidable (OneMissing s act)
  | .deliver => inferInstanceAs (Decidable (_ = _))
  | .exit => inferInstanceAs (Decidable (_ ≠ _))
  | .kill => inferInstanceAs (Decidable (_ ≠ _))
  | .master => isTrue trivial
  | .stop => isTrue trivial
  | .cont => isTrue trivial
  | .signal => isTrue trivial

/-! ## The invariants -/

/-- The first workers still to be started. -/
def MasterAt.left : MasterAt → Nat
  | .starting k => k
  | _ => 0

/-- Workers come from `fork` and go by `waitpid`. -/
def Master.Counted (n : Nat) (s : Master) : Prop :=
  s.workers + s.reaped + s.phase.left = n + s.spawned

/-- A statement of the master keeps the count. -/
theorem Master.advance_counted {n : Nat} {s s' : Master} (h : s.Counted n)
    (hs : s.advance s.phase = some s') : s'.Counted n := by
  unfold Counted workers at h ⊢
  cases hphase : s.phase with
  | starting k =>
    rw [hphase] at h hs
    cases k with
    | zero =>
      obtain rfl := (Option.some.inj hs).symm
      exact h
    | succ k =>
      obtain rfl := (Option.some.inj hs).symm
      simp only [MasterAt.left] at h ⊢
      omega
  | suspended woken =>
    rw [hphase] at h hs
    cases woken with
    | false => cases hs
    | true =>
      obtain rfl := (Option.some.inj hs).symm
      exact h
  | waiting =>
    rw [hphase] at h hs
    simp only [advance] at hs
    split at hs
    · obtain rfl := (Option.some.inj hs).symm
      simp only [hphase, MasterAt.left] at h ⊢
      omega
    · obtain rfl := (Option.some.inj hs).symm
      exact h
  | noting =>
    rw [hphase] at h hs
    obtain rfl := (Option.some.inj hs).symm
    exact h
  | resumed =>
    rw [hphase] at h hs
    simp only [advance] at hs
    split at hs
    · obtain rfl := (Option.some.inj hs).symm
      exact h
    · obtain rfl := (Option.some.inj hs).symm
      exact h
  | spawning =>
    rw [hphase] at h hs
    obtain rfl := (Option.some.inj hs).symm
    simp only [MasterAt.left] at h ⊢
    omega

theorem MasterAt.left_of_inSuspend {p : MasterAt} (h : p.inSuspend = true) : p.left = 0 := by
  cases p with
  | suspended woken => rfl
  | starting k => cases h
  | waiting => rfl
  | noting => rfl
  | resumed => rfl
  | spawning => rfl

/-- Every step keeps the count, whatever happens. -/
theorem Master.step_counted (n : Nat) (s : Master) (act : MasterAct) (s' : Master)
    (h : s.Counted n) (hs : s.step act = some s') : s'.Counted n := by
  cases act with
  | master => exact advance_counted h hs
  | exit =>
    simp only [step, Option.ite_none_right_eq_some, Option.some.injEq] at hs
    obtain ⟨hpos, rfl⟩ := hs
    simp only [Counted, workers] at h ⊢
    omega
  | kill =>
    simp only [step, Option.ite_none_right_eq_some, Option.some.injEq] at hs
    obtain ⟨hpos, rfl⟩ := hs
    simp only [Counted, workers] at h ⊢
    omega
  | stop =>
    simp only [step, Option.ite_none_right_eq_some, Option.some.injEq] at hs
    obtain ⟨hpos, rfl⟩ := hs
    simp only [Counted, workers] at h ⊢
    omega
  | cont =>
    simp only [step, Option.ite_none_right_eq_some, Option.some.injEq] at hs
    obtain ⟨hpos, rfl⟩ := hs
    simp only [Counted, workers] at h ⊢
    omega
  | deliver =>
    simp only [step, Option.ite_none_right_eq_some, Option.some.injEq] at hs
    obtain ⟨⟨hphase, -⟩, rfl⟩ := hs
    rw [Counted, MasterAt.left_of_inSuspend hphase] at h
    exact h
  | signal =>
    simp only [step, Option.ite_none_right_eq_some, Option.some.injEq] at hs
    obtain ⟨hphase, rfl⟩ := hs
    rw [Counted, MasterAt.left_of_inSuspend hphase] at h
    exact h

/-- How many reaped workers have not been replaced, as the phase has it: none, or one while the flag
or the phase remembers it. -/
def Master.Balanced (s : Master) : Prop :=
  match s.phase with
  | .starting _ => s.reap = false ∧ s.reaped = s.spawned
  | .suspended false => s.reap = false ∧ s.reaped = s.spawned
  | .suspended true => s.reaped = s.spawned + s.reap.toNat
  | .waiting => s.spawned ≤ s.reaped ∧ s.dead + s.reaped = s.spawned + 1
  | .noting => s.reaped = s.spawned + 1
  | .resumed => s.reaped = s.spawned + s.reap.toNat
  | .spawning => s.reap = false ∧ s.reaped = s.spawned + 1

/-- Inside `sigsuspend` the flag tells what is missing. -/
theorem Master.Balanced.inSuspend {s : Master} (h : s.Balanced) (hs : s.phase.inSuspend = true) :
    s.reaped = s.spawned + s.reap.toNat := by
  unfold Balanced at h
  cases hphase : s.phase with
  | suspended woken =>
    rw [hphase] at h
    cases woken with
    | false => rw [h.1]; exact h.2
    | true => exact h
  | starting k => rw [hphase] at hs; cases hs
  | waiting => rw [hphase] at hs; cases hs
  | noting => rw [hphase] at hs; cases hs
  | resumed => rw [hphase] at hs; cases hs
  | spawning => rw [hphase] at hs; cases hs

/-- A worker dies outside the loop of `waitpid`. -/
theorem Master.Balanced.dies {s s' : Master} (h : s.Balanced) (hphase : s.phase ≠ .waiting)
    (hsame : s'.phase = s.phase ∧ s'.reap = s.reap ∧ s'.reaped = s.reaped ∧
      s'.spawned = s.spawned) : s'.Balanced := by
  obtain ⟨hp, hreap, hreaped, hspawned⟩ := hsame
  unfold Balanced at h ⊢
  rw [hp, hreap, hreaped, hspawned]
  cases hcase : s.phase with
  | waiting => exact absurd hcase hphase
  | starting k => rw [hcase] at h; exact h
  | suspended woken => rw [hcase] at h; cases woken <;> exact h
  | noting => rw [hcase] at h; exact h
  | resumed => rw [hcase] at h; exact h
  | spawning => rw [hcase] at h; exact h

/-- A statement of the master keeps the balance. -/
theorem Master.advance_balanced {s s' : Master} (h : s.Balanced)
    (hs : s.advance s.phase = some s') : s'.Balanced := by
  unfold Balanced at h
  cases hphase : s.phase with
  | starting k =>
    rw [hphase] at h hs
    cases k with
    | zero =>
      obtain rfl := (Option.some.inj hs).symm
      exact h
    | succ k =>
      obtain rfl := (Option.some.inj hs).symm
      exact h
  | suspended woken =>
    rw [hphase] at h hs
    cases woken with
    | false => cases hs
    | true =>
      obtain rfl := (Option.some.inj hs).symm
      exact h
  | waiting =>
    -- the loop ends when no dead worker is left: then the missing one has been reaped
    rw [hphase] at h hs
    obtain ⟨hle, hone⟩ := h
    simp only [advance] at hs
    split at hs
    · obtain rfl := (Option.some.inj hs).symm
      simp only [Balanced, hphase]
      omega
    · obtain rfl := (Option.some.inj hs).symm
      simp only [Balanced]
      omega
  | noting =>
    rw [hphase] at h hs
    obtain rfl := (Option.some.inj hs).symm
    exact h
  | resumed =>
    rw [hphase] at h hs
    simp only [advance] at hs
    split at hs
    · rename_i hreap
      obtain rfl := (Option.some.inj hs).symm
      rw [hreap] at h
      exact ⟨rfl, h⟩
    · rename_i hreap
      obtain rfl := (Option.some.inj hs).symm
      have hreap : s.reap = false := Bool.eq_false_iff.mpr hreap
      rw [hreap] at h
      exact ⟨hreap, h⟩
  | spawning =>
    rw [hphase] at h hs
    obtain rfl := (Option.some.inj hs).symm
    exact h

/-- Every step that meets the condition keeps the balance. -/
theorem Master.step_balanced (s : Master) (act : MasterAct) (s' : Master) (h : s.Balanced)
    (hok : OneMissing s act) (hs : s.step act = some s') : s'.Balanced := by
  cases act with
  | master => exact advance_balanced h hs
  | exit =>
    simp only [step, Option.ite_none_right_eq_some, Option.some.injEq] at hs
    obtain ⟨-, rfl⟩ := hs
    exact h.dies hok ⟨rfl, rfl, rfl, rfl⟩
  | kill =>
    simp only [step, Option.ite_none_right_eq_some, Option.some.injEq] at hs
    obtain ⟨-, rfl⟩ := hs
    exact h.dies hok ⟨rfl, rfl, rfl, rfl⟩
  | stop =>
    simp only [step, Option.ite_none_right_eq_some, Option.some.injEq] at hs
    obtain ⟨-, rfl⟩ := hs
    exact h
  | cont =>
    simp only [step, Option.ite_none_right_eq_some, Option.some.injEq] at hs
    obtain ⟨-, rfl⟩ := hs
    exact h
  | deliver =>
    simp only [step, Option.ite_none_right_eq_some, Option.some.injEq] at hs
    obtain ⟨⟨hphase, -⟩, rfl⟩ := hs
    have hflag := h.inSuspend hphase
    exact ⟨by show s.spawned ≤ s.reaped; omega, hok⟩
  | signal =>
    simp only [step, Option.ite_none_right_eq_some, Option.some.injEq] at hs
    obtain ⟨hphase, rfl⟩ := hs
    exact h.inSuspend hphase

/-- **The workers are supervised.** In every run in which SIGCHLD is only delivered when exactly one
worker is missing, and no worker dies while the handler reaps: whenever the master is back in
`sigsuspend` there are `n` workers and every reaped one has been replaced, and at no time has a
worker been started for which none was reaped. -/
theorem workers_supervised (n : Nat) (acts : List MasterAct) (s : Master)
    (hrun : run Master.step (Master.start n) acts = some s)
    (hok : Meets Master.step OneMissing (Master.start n) acts) :
    (s.phase = .suspended false → s.workers = n ∧ s.reaped = s.spawned) ∧
      s.spawned ≤ s.reaped ∧ s.reaped ≤ s.spawned + 1 := by
  have hcount : s.Counted n :=
    run_invariant_all (Master.step_counted n) (by simp [Master.Counted, Master.workers,
      Master.start, MasterAt.left]) hrun
  have hstart : (Master.start n).Balanced := ⟨rfl, rfl⟩
  have hbalance : s.Balanced := run_invariant Master.step_balanced acts _ s hstart hok hrun
  unfold Master.Counted at hcount
  unfold Master.Balanced at hbalance
  have hflag : s.reap.toNat ≤ 1 := Bool.toNat_le s.reap
  refine ⟨fun hphase => ?_, ?_⟩
  · rw [hphase] at hcount hbalance
    simp only [MasterAt.left] at hcount
    have heq := hbalance.2
    exact ⟨by omega, heq⟩
  · split at hbalance <;> omega

/-- Three workers, two of which exit one after the other, with another signal in between. -/
theorem workers_supervised_twice :
    ∃ s, run Master.step (Master.start 3) [.master, .master, .master, .master, .exit, .deliver,
        .master, .master, .master, .master, .master, .master, .signal, .exit, .deliver, .master,
        .master, .master, .master, .master, .master] = some s ∧
      s.spawned = 2 ∧ s.workers = 3 := by
  obtain ⟨s, hrun, hphase, hspawned⟩ : ∃ s, run Master.step (Master.start 3) [.master, .master,
        .master, .master, .exit, .deliver, .master, .master, .master, .master, .master, .master,
        .signal, .exit, .deliver, .master, .master, .master, .master, .master, .master] = some s ∧
      s.phase = .suspended false ∧ s.spawned = 2 := ⟨_, rfl, rfl, rfl⟩
  exact ⟨s, hrun, hspawned, ((workers_supervised 3 _ s hrun (by decide)).1 hphase).1⟩

/-- Two of two workers die before their SIGCHLD is delivered: one is replaced. And a worker that is
stopped gets a second one beside it. -/
theorem workers_not_supervised :
    (∃ s, run Master.step (Master.start 2) [.master, .master, .master, .exit, .exit, .deliver,
        .master, .master, .master, .master, .master, .master, .master] = some s ∧
      s.phase = .suspended false ∧ s.workers = 1) ∧
    ∃ s, run Master.step (Master.start 1) [.master, .master, .stop, .deliver, .master, .master,
        .master, .master, .master] = some s ∧
      s.phase = .suspended false ∧ s.workers = 2 :=
  ⟨⟨_, rfl, rfl, rfl⟩, _, rfl, rfl, rfl⟩

end Mgx
