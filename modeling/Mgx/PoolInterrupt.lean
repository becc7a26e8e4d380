import Mgx.ThreadPool

/-
  Interrupted waits in the thread pool.

  The result of `sem_wait` is ignored, so a worker that a signal wakes goes on as
  if it had taken a token. What keeps it from the queue then is the test of
  `m_msg_queue_size`, which is made before the lock and not again inside.

  Correspondence (C++ ↔ Lean): that of `ThreadPool`.

  A worker that has passed the test and not yet popped has claimed a message. As
  long as no more messages are claimed than the queue holds, it does not matter
  who has a token and who has not.

  What is proved: `workers_survive`. No worker pops from an empty queue or
  decrements the counter below 0 as long as a worker passes the test only while
  the queue holds a message that nobody has claimed. Runs without interrupted
  waits are such runs (`ThPool.Tokens.testOk`). A test passed otherwise claims a
  message twice (`ThPool.overclaimed_of_test`), and that stays so until a producer
  comes or the pool is shut down (`overclaimed_stays`).
-/
namespace Mgx
open Runs

variable {μ : Type}

/-- The worker has passed the test and not yet popped. -/
def WorkerAt.claims : WorkerAt → Bool
  | .entering | .locked => true
  | _ => false

/-- The messages that workers have claimed. -/
def ThPool.claimed (s : ThPool μ) : Nat := s.workers.countP WorkerAt.claims

/-- A worker that finds `m_msg_queue_size > 0` finds a message in the queue that no other worker has
claimed. -/
def TestOk (s : ThPool μ) : PoolAct μ → Prop
  | .worker i => s.workers[i]? = some .woken → s.shutdown = false → 0 < s.size →
      s.claimed < s.queue.length
  | _ => True

instance (s : ThPool μ) : ∀ act, Decidable (TestOk s act)
  | .worker i => inferInstanceAs (Decidable (s.workers[i]? = some .woken → _))
  | .producer _ => isTrue trivial
  | .call _ _ => isTrue trivial
  | .interrupt _ => isTrue trivial
  | .shutdown => isTrue trivial

/-! ## What a worker does to the claims -/

/-- A worker moves, and takes from the queue what its claim was on. -/
theorem ThPool.claimed_move {s s' : ThPool μ} {i : Nat} {w w' : WorkerAt}
    (hw : s.workers[i]? = some w) (hworkers : s'.workers = s.workers.set i w') (hnot : w ≠ .woken)
    (hbalance : s'.queue.length + (if w.claims then 1 else 0) =
      s.queue.length + (if w'.claims then 1 else 0)) :
    s'.claimed + s.queue.length =
      s.claimed + s'.queue.length + if w = .woken ∧ 0 < s.size then 1 else 0 := by
  have hcount := Crew.countP_move (q := w') WorkerAt.claims hw
  rw [if_neg (fun h => hnot h.1), claimed, claimed, hworkers]
  omega

/-- A statement of a worker before the shutdown pops from an empty queue, or it takes a message with
the claim on it; only the test adds a claim. -/
theorem ThPool.workerStep_claims {s s' : ThPool μ} {i : Nat} {w : WorkerAt}
    (hw : s.workers[i]? = some w) (hrunning : s.shutdown = false) (hdef : s.undef = false)
    (hs : s.workerStep i w = some s') :
    (w = .locked ∧ s.queue = [] ∧ s'.undef = true) ∨
    (s'.shutdown = false ∧ s'.undef = false ∧ s'.claimed + s.queue.length =
      s.claimed + s'.queue.length + if w = .woken ∧ 0 < s.size then 1 else 0) := by
  cases w with
  | waiting =>
    simp only [workerStep, Option.ite_none_right_eq_some, Option.some.injEq] at hs
    obtain ⟨-, rfl⟩ := hs
    exact .inr ⟨hrunning, hdef, claimed_move hw rfl WorkerAt.noConfusion rfl⟩
  | woken =>
    obtain rfl := (Option.some.inj hs).symm
    refine .inr ⟨hrunning, hdef, ?_⟩
    by_cases hsize : 0 < s.size
    · -- one claim more, on the same queue
      have hcount := Crew.countP_move (q := .entering) WorkerAt.claims hw
      simp only [WorkerAt.claims, Bool.false_eq_true, if_false, if_true, Nat.add_zero] at hcount
      rw [if_pos hsize, if_pos ⟨rfl, hsize⟩]
      simp only [claimed, setWorker, hcount]
      omega
    · have hcount := Crew.countP_move (q := .waiting) WorkerAt.claims hw
      simp only [WorkerAt.claims, Bool.false_eq_true, if_false, Nat.add_zero] at hcount
      rw [if_neg hsize, if_neg (fun h => hsize h.2)]
      simp only [claimed, setWorker, hcount]
      omega
  | entering =>
    simp only [workerStep, Option.ite_none_right_eq_some, Option.some.injEq] at hs
    obtain ⟨-, rfl⟩ := hs
    exact .inr ⟨hrunning, hdef, claimed_move hw rfl WorkerAt.noConfusion rfl⟩
  | locked =>
    simp only [workerStep, hrunning, Bool.false_eq_true, if_false] at hs
    split at hs
    · next hq =>
      obtain rfl := (Option.some.inj hs).symm
      exact .inl ⟨rfl, hq, rfl⟩
    · next a rest hq =>
      obtain rfl := (Option.some.inj hs).symm
      have hbalance : rest.length + 1 = s.queue.length + 0 := by
        rw [hq, List.length_cons]
      exact .inr ⟨hrunning, hdef, claimed_move hw rfl WorkerAt.noConfusion hbalance⟩
  | popped a =>
    obtain rfl := (Option.some.inj hs).symm
    exact .inr ⟨hrunning, hdef, claimed_move hw rfl WorkerAt.noConfusion rfl⟩
  | counted a =>
    obtain rfl := (Option.some.inj hs).symm
    exact .inr ⟨hrunning, hdef, claimed_move hw rfl WorkerAt.noConfusion rfl⟩
  | handling a =>
    obtain rfl := (Option.some.inj hs).symm
    exact .inr ⟨hrunning, hdef, claimed_move hw rfl WorkerAt.noConfusion rfl⟩
  | exited => cases hs

/-! ## No message is claimed twice -/

/-- The pool runs, and no more messages are claimed than there are; or it is shut down. -/
structure ThPool.Claimed (s : ThPool μ) : Prop where
  defined : s.undef = false
  enough : s.shutdown = false → s.claimed ≤ s.queue.length

theorem ThPool.start_claimed (n k : Nat) : (ThPool.start μ n k).Claimed where
  defined := rfl
  enough _ := by
    show (List.replicate n WorkerAt.waiting).countP _ ≤ 0
    rw [List.countP_replicate]
    exact Nat.le_refl 0

theorem ThPool.step_claimed (s : ThPool μ) (act : PoolAct μ) (s' : ThPool μ) (h : s.Claimed)
    (hok : TestOk s act) (hs : s.step act = some s') : s'.Claimed := by
  simp only [step, h.defined, Bool.false_eq_true, if_false] at hs
  cases act with
  | worker i =>
    obtain ⟨w, hw, hs⟩ := Option.bind_eq_some_iff.mp hs
    cases hdown : s.shutdown with
    | true =>
      -- no worker pops any more
      have hframe := workerStep_frame hs
      refine ⟨(hframe.undef hdown).trans h.defined, fun hrun => ?_⟩
      rw [hframe.shutdown, hdown] at hrun
      cases hrun
    | false =>
      have henough := h.enough hdown
      obtain ⟨rfl, hq, -⟩ | ⟨-, hdef, hcount⟩ := workerStep_claims hw hdown h.defined hs
      · -- this worker has claimed a message, so there is one
        have hone : 0 < s.claimed := Crew.countP_pos_of_get hw rfl
        rw [hq, List.length_nil] at henough
        omega
      · refine ⟨hdef, fun _ => ?_⟩
        by_cases htest : w = .woken ∧ 0 < s.size
        · have hfree := hok (htest.1 ▸ hw) hdown htest.2
          rw [if_pos htest] at hcount
          omega
        · rw [if_neg htest] at hcount
          omega
  | producer j =>
    obtain ⟨p, -, hs⟩ := Option.bind_eq_some_iff.mp hs
    have hframe := producerStep_frame hs
    refine ⟨hframe.undef.trans h.defined, fun hrun => ?_⟩
    have henough := h.enough (hframe.shutdown.symm.trans hrun)
    rw [claimed, hframe.workers]
    exact henough.trans hframe.queue
  | call j m =>
    obtain ⟨p, -, hs⟩ := Option.bind_eq_some_iff.mp hs
    cases p with
    | idle =>
      obtain rfl := (Option.some.inj hs).symm
      exact ⟨h.defined, h.enough⟩
    | calling _ => cases hs
    | locked _ => cases hs
    | pushed => cases hs
    | counted => cases hs
    | posting => cases hs
  | interrupt i =>
    obtain ⟨w, hw, hs⟩ := Option.bind_eq_some_iff.mp hs
    simp only [Option.ite_none_right_eq_some, Option.some.injEq] at hs
    obtain ⟨rfl, rfl⟩ := hs
    have hcount := Crew.countP_move (q := .woken) WorkerAt.claims hw
    exact ⟨h.defined, fun hrun => hcount.trans_le (h.enough hrun)⟩
  | shutdown =>
    obtain rfl := (Option.some.inj hs).symm
    exact ⟨rfl, fun hrun => by cases hrun⟩

/-- **Workers survive interrupted waits.** For any numbers of workers and producers and any
interleaving, with interrupted waits, in which a worker passes the test only while the queue holds a
message that nobody has claimed, no worker pops from an empty queue, and none decrements the counter
at 0. -/
theorem workers_survive (n k : Nat) (acts : List (PoolAct μ)) (s : ThPool μ)
    (hrun : run ThPool.step (ThPool.start μ n k) acts = some s)
    (hok : Meets ThPool.step TestOk (ThPool.start μ n k) acts) :
    s.undef = false ∧ ∀ (i : Nat) a, s.workers[i]? = some (WorkerAt.popped a) → 0 < s.size := by
  have hinv : s.Inv := run_invariant_all ThPool.step_inv (ThPool.start_inv n k) hrun
  have hclaimed : s.Claimed :=
    run_invariant ThPool.step_claimed acts _ s (ThPool.start_claimed n k) hok hrun
  refine ⟨hclaimed.defined, fun i a hw => ?_⟩
  have hone : 0 < s.workers.countP WorkerAt.uncounted := Crew.countP_pos_of_get hw rfl
  have halone := hinv.worker_alone hw rfl
  have hsize := hinv.size
  omega

/-! ## When the condition is met, and when it is not -/

/-- Where every message has its token the test is passed only for a message of one's own. -/
theorem ThPool.Tokens.testOk {s : ThPool μ} (ht : s.Tokens) (act : PoolAct μ) : TestOk s act := by
  cases act with
  | worker i =>
    intro hw _ _
    -- the workers that have a token are this one and all that have claimed a message
    have hle : (s.workers.set i .waiting).countP WorkerAt.claims ≤
        (s.workers.set i .waiting).countP WorkerAt.hasToken := by
      apply List.countP_mono_left
      intro w _ hw
      cases w <;> simp_all [WorkerAt.claims, WorkerAt.hasToken]
    have hclaims := Crew.countP_move (q := .waiting) WorkerAt.claims hw
    have hhas := Crew.countP_move (q := .waiting) WorkerAt.hasToken hw
    simp only [WorkerAt.claims, WorkerAt.hasToken, Bool.false_eq_true, if_false, if_true] at *
    have htokens := ht.tokens
    show s.workers.countP WorkerAt.claims < s.queue.length
    omega
  | producer _ => trivial
  | call _ _ => trivial
  | interrupt _ => trivial
  | shutdown => trivial

/-- More messages are claimed than there are. -/
def ThPool.Overclaimed (s : ThPool μ) : Prop :=
  s.shutdown = false ∧ s.queue.length < s.claimed

/-- The test that the condition excludes leads there. -/
theorem ThPool.overclaimed_of_test {s s' : ThPool μ} {i : Nat} (hrunning : s.shutdown = false)
    (hbad : ¬ TestOk s (.worker i)) (hs : s.step (.worker i) = some s') : s'.Overclaimed := by
  simp only [TestOk, Classical.not_imp, Nat.not_lt] at hbad
  obtain ⟨hw, -, hsize, hle⟩ := hbad
  simp only [step, Option.ite_none_left_eq_some, Bool.not_eq_true] at hs
  obtain ⟨hdef, hs⟩ := hs
  rw [hw, Option.bind_some] at hs
  obtain ⟨hno, -, -⟩ | ⟨hrun, -, hcount⟩ := workerStep_claims hw hrunning hdef hs
  · cases hno
  · refine ⟨hrun, ?_⟩
    rw [if_pos ⟨rfl, hsize⟩] at hcount
    omega

/-- A claim too many stays, whatever the workers do, until one of them pops from the empty queue. -/
theorem overclaimed_stays {is : List Nat} : ∀ {s s' : ThPool μ}, s.Overclaimed →
    s.undef = false → run ThPool.step s (is.map .worker) = some s' →
    s'.undef = true ∨ s'.Overclaimed := by
  induction is with
  | nil =>
    intro s s' h _ hrun
    rw [List.map_nil, run_nil, Option.some.injEq] at hrun
    exact .inr (hrun ▸ h)
  | cons i is ih =>
    intro s s' h hdef hrun
    obtain ⟨m, hs, hrun⟩ := run_cons.mp hrun
    simp only [ThPool.step, hdef, Bool.false_eq_true, if_false] at hs
    obtain ⟨w, hw, hs⟩ := Option.bind_eq_some_iff.mp hs
    obtain ⟨-, -, hpop⟩ | ⟨hrunning, hdef, hcount⟩ := ThPool.workerStep_claims hw h.1 hdef hs
    · -- the run ends here
      left
      cases is with
      | nil =>
        rw [List.map_nil, run_nil, Option.some.injEq] at hrun
        exact hrun ▸ hpop
      | cons j is =>
        obtain ⟨m', hs', -⟩ := run_cons.mp hrun
        simp [ThPool.step, hpop] at hs'
    · have hlt := h.2
      exact ih ⟨hrunning, by omega⟩ hdef hrun

/-- The second worker is interrupted while the queue is empty, and while a message is on its way that
the first one takes. -/
theorem workers_survive_twice : ∃ s, run ThPool.step (ThPool.start Nat 2 1)
      [.interrupt 1, .worker 1, .call 0 7, .producer 0, .producer 0, .producer 0, .producer 0,
        .producer 0, .worker 0, .worker 0, .worker 0, .worker 0, .interrupt 1, .worker 0,
        .worker 1, .worker 0, .worker 0] = some s ∧ s.handled = [(0, 0)] ∧ s.undef = false := by
  obtain ⟨s, hrun, hhandled⟩ : ∃ s, run ThPool.step (ThPool.start Nat 2 1)
      [.interrupt 1, .worker 1, .call 0 7, .producer 0, .producer 0, .producer 0, .producer 0,
        .producer 0, .worker 0, .worker 0, .worker 0, .worker 0, .interrupt 1, .worker 0,
        .worker 1, .worker 0, .worker 0] = some s ∧ s.handled = [(0, 0)] := ⟨_, rfl, rfl⟩
  exact ⟨s, hrun, hhandled, (workers_survive 2 1 _ s hrun (by decide)).1⟩

/-- One message and two workers: one takes the token, the other is interrupted; both pass the test,
and the second pops from the empty queue. -/
theorem worker_pops_empty : ∃ s, run ThPool.step (ThPool.start Nat 2 1)
      [.call 0 7, .producer 0, .producer 0, .producer 0, .producer 0, .producer 0, .worker 0,
        .interrupt 1, .worker 0, .worker 1, .worker 0, .worker 0, .worker 0, .worker 0, .worker 1,
        .worker 1] = some s ∧ s.queue = [] ∧ s.undef = true :=
  ⟨_, rfl, rfl, rfl⟩

end Mgx
