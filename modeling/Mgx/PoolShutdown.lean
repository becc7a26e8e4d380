import Mgx.ThreadPool

/-
  Shutting the thread pool down.

  `destory_all` sets `m_shutdown` and joins the workers one after the other. It
  posts no token: a worker gets to see `m_shutdown` only with a token that is left
  over, and only if the test of `m_msg_queue_size` lets it in.

  Correspondence (C++ ↔ Lean), `misc/mgx_thread_pool.cpp`:
    `m_shutdown = true` in `destory_all`       ↔ `ThPool.destoryAll`
    the worker `destory_all` is joining        ↔ `PoolDown.joining`
    `(*it)->join()` returning, then `it++`     ↔ `DownAct.join`
    the workers' statements                    ↔ those of `ThreadPool`

  Nobody inserts messages any more. `sem_wait` may still be interrupted.

  What is proved: `shutdown_cannot_deadlock_iff`. Whether `destory_all` can be left
  waiting for blocked workers is decided by where the workers are, the tokens and
  the queue when `m_shutdown` is set: with messages in the queue there must be a
  token for every worker that comes to `sem_wait` again, and with none every
  worker must be past the test.
-/
namespace Mgx
open Runs

variable {μ : Type}

/-- The pool while `destory_all` joins its workers. -/
structure PoolDown (μ : Type) where
  pool : ThPool μ
  joining : Nat

/-- What can happen. -/
inductive DownAct where
  | worker (i : Nat)
  | interrupt (i : Nat)
  | join
  deriving DecidableEq, Repr

/-- `destory_all` up to its loop. -/
def ThPool.destoryAll (s : ThPool μ) : PoolDown μ := ⟨{ s with shutdown := true }, 0⟩

/-- The pool goes on to `p`. -/
def PoolDown.setPool (s : PoolDown μ) (p : ThPool μ) : PoolDown μ := { s with pool := p }

/-- One step. -/
def PoolDown.step (s : PoolDown μ) : DownAct → Option (PoolDown μ)
  | .worker i => (s.pool.step (.worker i)).map s.setPool
  | .interrupt i => (s.pool.step (.interrupt i)).map s.setPool
  | .join =>
    if s.pool.workers[s.joining]? = some .exited then some { s with joining := s.joining + 1 }
    else none

/-- `destory_all` waits for a worker, and every worker that is left is blocked. -/
structure PoolDown.Deadlock (s : PoolDown μ) : Prop where
  joins : ∃ w, s.pool.workers[s.joining]? = some w ∧ w ≠ .exited
  sem : s.pool.sem = 0
  blocked : ∀ w ∈ s.pool.workers, w = .waiting ∨ w = .exited

/-- The worker is in `sem_wait`, or comes to it without another test of the size. -/
def WorkerAt.willWait : WorkerAt → Bool
  | .waiting | .popped _ | .counted _ | .handling _ => true
  | _ => false

/-- The worker has the test of the size before it. -/
def WorkerAt.untested : WorkerAt → Bool
  | .waiting | .woken | .popped _ | .counted _ | .handling _ => true
  | _ => false

/-- With messages in the queue there is a token for every worker that will wait; with none every
worker is past the test. -/
def ThPool.AllExit (s : ThPool μ) : Prop :=
  if 0 < s.queue.length then s.workers.countP WorkerAt.willWait ≤ s.sem
  else s.workers.countP WorkerAt.untested = 0

instance (s : ThPool μ) : Decidable s.AllExit :=
  inferInstanceAs (Decidable (if 0 < s.queue.length then
    s.workers.countP WorkerAt.willWait ≤ s.sem else s.workers.countP WorkerAt.untested = 0))

/-! ## What a worker does after the shutdown -/

/-- A worker's moves, by the size it finds and the tokens it takes. -/
inductive WorkerAt.Leaves (size : Nat) : WorkerAt → WorkerAt → Nat → Prop
  | wake : Leaves size .waiting .woken 1
  | pass : 0 < size → Leaves size .woken .entering 0
  | fail : size = 0 → Leaves size .woken .waiting 0
  | lock : Leaves size .entering .locked 0
  | exit : Leaves size .locked .exited 0
  | count (a : Addr) : Leaves size (.popped a) (.counted a) 0
  | unlock (a : Addr) : Leaves size (.counted a) (.handling a) 0
  | finish (a : Addr) : Leaves size (.handling a) .waiting 0

/-- Worker `i` moves to `w` with `t` tokens. -/
structure ThPool.DownStep (s s' : ThPool μ) (i : Nat) (w : WorkerAt) (t : Nat) : Prop where
  workers : s'.workers = s.workers.set i w
  sem : s.sem = s'.sem + t
  queue : s'.queue = s.queue
  producers : s'.producers = s.producers
  shutdown : s'.shutdown = s.shutdown
  undef : s'.undef = s.undef
  mutex : s'.mutex = s.mutex ∨ s'.mutex = none ∨ s'.mutex = some (.worker i)

theorem ThPool.workerStep_leaves {s s' : ThPool μ} {i : Nat} {w : WorkerAt}
    (hdown : s.shutdown = true) (hs : s.workerStep i w = some s') :
    ∃ w' t, w.Leaves s.size w' t ∧ s.DownStep s' i w' t := by
  cases w with
  | waiting =>
    simp only [workerStep, Option.ite_none_right_eq_some, Option.some.injEq] at hs
    obtain ⟨hsem, rfl⟩ := hs
    have htoken : s.sem = s.sem - 1 + 1 := by omega
    exact ⟨_, _, .wake, rfl, htoken, rfl, rfl, rfl, rfl, .inl rfl⟩
  | woken =>
    obtain rfl := (Option.some.inj hs).symm
    by_cases hsize : s.size > 0
    · rw [if_pos hsize]
      exact ⟨_, _, .pass hsize, rfl, rfl, rfl, rfl, rfl, rfl, .inl rfl⟩
    · rw [if_neg hsize]
      exact ⟨_, _, .fail (Nat.eq_zero_of_not_pos hsize), rfl, rfl, rfl, rfl, rfl, rfl, .inl rfl⟩
  | entering =>
    simp only [workerStep, Option.ite_none_right_eq_some, Option.some.injEq] at hs
    obtain ⟨-, rfl⟩ := hs
    exact ⟨_, _, .lock, rfl, rfl, rfl, rfl, rfl, rfl, .inr (.inr rfl)⟩
  | locked =>
    simp only [workerStep, hdown, if_true, Option.some.injEq] at hs
    subst hs
    exact ⟨_, _, .exit, rfl, rfl, rfl, rfl, rfl, rfl, .inr (.inl rfl)⟩
  | popped a =>
    obtain rfl := (Option.some.inj hs).symm
    exact ⟨_, _, .count a, rfl, rfl, rfl, rfl, rfl, rfl, .inl rfl⟩
  | counted a =>
    obtain rfl := (Option.some.inj hs).symm
    exact ⟨_, _, .unlock a, rfl, rfl, rfl, rfl, rfl, rfl, .inr (.inl rfl)⟩
  | handling a =>
    obtain rfl := (Option.some.inj hs).symm
    exact ⟨_, _, .finish a, rfl, rfl, rfl, rfl, rfl, rfl, .inl rfl⟩
  | exited => cases hs

/-- What is left for a worker to do, a token counted for 4. -/
def WorkerAt.toDo : WorkerAt → Nat
  | .waiting => 0
  | .woken => 3
  | .entering => 2
  | .locked => 1
  | .popped _ => 3
  | .counted _ => 2
  | .handling _ => 1
  | .exited => 0

theorem WorkerAt.Leaves.toDo_lt {size t : Nat} {w w' : WorkerAt} (h : w.Leaves size w' t) :
    w'.toDo < w.toDo + 4 * t := by
  cases h <;> simp [toDo]

/-- Where the size is positive every token that is taken sends a worker to its exit. -/
theorem WorkerAt.Leaves.willWait {size t : Nat} {w w' : WorkerAt} (h : w.Leaves size w' t)
    (hsize : 0 < size) : (if w'.willWait then 1 else 0) + t = if w.willWait then 1 else 0 := by
  cases h with
  | fail h0 => omega
  | wake => rfl
  | pass _ => rfl
  | lock => rfl
  | exit => rfl
  | count _ => rfl
  | unlock _ => rfl
  | finish _ => rfl

/-- Where it is 0 no worker gets past the test. -/
theorem WorkerAt.Leaves.untested {size t : Nat} {w w' : WorkerAt} (h : w.Leaves size w' t)
    (hno : w = .woken → size = 0) : w'.untested = w.untested := by
  cases h with
  | pass hpos => exact absurd (hno rfl) (by omega)
  | wake => rfl
  | fail _ => rfl
  | lock => rfl
  | exit => rfl
  | count _ => rfl
  | unlock _ => rfl
  | finish _ => rfl

theorem WorkerAt.Leaves.ne_exited {size t : Nat} {w w' : WorkerAt} (h : w.Leaves size w' t) :
    w ≠ .exited := by
  rintro rfl
  cases h

/-! ## The holder of the mutex -/

/-- The mutex is held by one of the threads. -/
def ThPool.Manned (s : ThPool μ) : Prop :=
  ∀ h, s.mutex = some h → (∃ i, h = .worker i ∧ i < s.workers.length) ∨
    ∃ j, h = .producer j ∧ j < s.producers.length

/-- A step that takes the mutex for one of the threads, gives it back, or leaves it. -/
theorem ThPool.Manned.of_mutex {s s' : ThPool μ} (h : s.Manned)
    (hworkers : s'.workers.length = s.workers.length)
    (hproducers : s'.producers.length = s.producers.length)
    (hmutex : s'.mutex = s.mutex ∨ s'.mutex = none ∨
      (∃ i, s'.mutex = some (.worker i) ∧ i < s.workers.length) ∨
      ∃ j, s'.mutex = some (.producer j) ∧ j < s.producers.length) : s'.Manned := by
  intro x hx
  rw [hworkers, hproducers]
  rcases hmutex with hsame | hnone | ⟨i, hi, hlt⟩ | ⟨j, hj, hlt⟩
  · exact h x (hsame ▸ hx)
  · rw [hnone] at hx
    cases hx
  · rw [hi] at hx
    exact .inl ⟨i, (Option.some.inj hx).symm, hlt⟩
  · rw [hj] at hx
    exact .inr ⟨j, (Option.some.inj hx).symm, hlt⟩

theorem ThPool.step_manned (s : ThPool μ) (act : PoolAct μ) (s' : ThPool μ) (h : s.Manned)
    (hs : s.step act = some s') : s'.Manned := by
  unfold step at hs
  split at hs
  case isTrue => cases hs
  case isFalse hdef =>
  cases act with
  | worker i =>
    obtain ⟨w, hw, hs⟩ := Option.bind_eq_some_iff.mp hs
    have hframe := workerStep_frame hs
    have hlt : i < s.workers.length := (List.getElem?_eq_some_iff.mp hw).1
    exact h.of_mutex hframe.workers (by rw [hframe.producers])
      (hframe.mutex.imp_right fun hm => hm.imp_right fun hi => .inl ⟨i, hi, hlt⟩)
  | producer j =>
    obtain ⟨p, hp, hs⟩ := Option.bind_eq_some_iff.mp hs
    have hframe := producerStep_frame hs
    have hlt : j < s.producers.length := (List.getElem?_eq_some_iff.mp hp).1
    exact h.of_mutex (by rw [hframe.workers]) hframe.producers
      (hframe.mutex.imp_right fun hm => hm.imp_right fun hj => .inr ⟨j, hj, hlt⟩)
  | call j m =>
    obtain ⟨p, hp, hs⟩ := Option.bind_eq_some_iff.mp hs
    cases p with
    | idle =>
      obtain rfl := (Option.some.inj hs).symm
      exact h.of_mutex rfl List.length_set (.inl rfl)
    | calling _ => cases hs
    | locked _ => cases hs
    | pushed => cases hs
    | counted => cases hs
    | posting => cases hs
  | interrupt i =>
    obtain ⟨w, hw, hs⟩ := Option.bind_eq_some_iff.mp hs
    simp only [Option.ite_none_right_eq_some, Option.some.injEq] at hs
    obtain ⟨-, rfl⟩ := hs
    exact h.of_mutex List.length_set rfl (.inl rfl)
  | shutdown =>
    obtain rfl := (Option.some.inj hs).symm
    exact h.of_mutex rfl rfl (.inl rfl)

/-! ## Whole runs of the shutdown -/

/-- The pool is shut down and nobody inserts; a worker holds the mutex if it is held; and the workers
joined have exited. -/
structure PoolDown.Inv (s : PoolDown μ) : Prop where
  pool : s.pool.Inv
  shutdown : s.pool.shutdown = true
  defined : s.pool.undef = false
  idle : ∀ p ∈ s.pool.producers, p = .idle
  holder : ∀ h, s.pool.mutex = some h → ∃ i, h = .worker i ∧ i < s.pool.workers.length
  joined : ∀ j, j < s.joining → s.pool.workers[j]? = some .exited

theorem ThPool.destoryAll_inv {s : ThPool μ} (h : s.Inv) (hmanned : s.Manned)
    (hdef : s.undef = false) (hidle : ∀ p ∈ s.producers, p = .idle) : s.destoryAll.Inv where
  pool := ⟨h.workers, h.producers, h.size, h.order, h.hands⟩
  shutdown := rfl
  defined := hdef
  idle := hidle
  holder x hx := by
    obtain hw | ⟨j, rfl, hj⟩ := hmanned x hx
    · exact hw
    · -- a producer that holds the mutex is inside a call
      have hget : s.producers[j]? = some s.producers[j] := List.getElem?_eq_getElem hj
      have hin := (h.producers j _ hget).mpr hx
      rw [hidle _ (List.getElem_mem hj)] at hin
      cases hin
  joined j hj := absurd hj (Nat.not_lt_zero j)

/-- The counter, without producers. -/
theorem PoolDown.Inv.size {s : PoolDown μ} (h : s.Inv) :
    s.pool.size = s.pool.queue.length + s.pool.workers.countP WorkerAt.uncounted := by
  have hnone : s.pool.producers.countP ProducerAt.uncounted = 0 := by
    apply List.countP_eq_zero.mpr
    intro p hp
    rw [h.idle p hp]
    exact Bool.false_ne_true
  have hsize := h.pool.size
  omega

/-- A worker moves. -/
theorem PoolDown.Inv.setPool {s : PoolDown μ} (h : s.Inv) {p : ThPool μ} {i t : Nat}
    {w w' : WorkerAt} (hw : s.pool.workers[i]? = some w) (hne : w ≠ .exited)
    (hstep : s.pool.DownStep p i w' t) (hp : p.Inv) : (s.setPool p).Inv where
  pool := hp
  shutdown := hstep.shutdown.trans h.shutdown
  defined := hstep.undef.trans h.defined
  idle q hq := h.idle q (hstep.producers ▸ hq)
  holder x hx := by
    have hlen : p.workers.length = s.pool.workers.length := by
      rw [hstep.workers, List.length_set]
    show ∃ k, x = .worker k ∧ k < p.workers.length
    rw [hlen]
    have hx : p.mutex = some x := hx
    rcases hstep.mutex with hsame | hnone | hi
    · exact h.holder x (hsame ▸ hx)
    · rw [hnone] at hx
      cases hx
    · exact ⟨i, (Option.some.inj (hi.symm.trans hx)).symm, (List.getElem?_eq_some_iff.mp hw).1⟩
  joined j hj := by
    show p.workers[j]? = some .exited
    rw [hstep.workers]
    refine (Crew.getElem?_move hw).mpr (.inr ⟨?_, h.joined j hj⟩)
    rintro rfl
    exact hne (Option.some.inj (hw.symm.trans (h.joined j hj)))

theorem PoolDown.step_worker {s s' : PoolDown μ} {i : Nat} (h : s.Inv)
    (hs : s.step (.worker i) = some s') :
    ∃ p w w' t, s' = s.setPool p ∧ s.pool.workers[i]? = some w ∧ w.Leaves s.pool.size w' t ∧
      s.pool.DownStep p i w' t ∧ p.Inv := by
  obtain ⟨p, hp, rfl⟩ := Option.map_eq_some_iff.mp hs
  have hinv := ThPool.step_inv s.pool _ p h.pool hp
  simp only [ThPool.step, h.defined, Bool.false_eq_true, if_false] at hp
  obtain ⟨w, hw, hp⟩ := Option.bind_eq_some_iff.mp hp
  obtain ⟨w', t, hleaves, hstep⟩ := ThPool.workerStep_leaves h.shutdown hp
  exact ⟨p, w, w', t, rfl, hw, hleaves, hstep, hinv⟩

theorem PoolDown.step_interrupt {s s' : PoolDown μ} {i : Nat} (h : s.Inv)
    (hs : s.step (.interrupt i) = some s') :
    ∃ p, s' = s.setPool p ∧ s.pool.workers[i]? = some .waiting ∧ s.pool.DownStep p i .woken 0 ∧
      p.Inv := by
  obtain ⟨p, hp, rfl⟩ := Option.map_eq_some_iff.mp hs
  have hinv := ThPool.step_inv s.pool _ p h.pool hp
  simp only [ThPool.step, h.defined, Bool.false_eq_true, if_false] at hp
  obtain ⟨w, hw, hp⟩ := Option.bind_eq_some_iff.mp hp
  simp only [Option.ite_none_right_eq_some, Option.some.injEq] at hp
  obtain ⟨rfl, hp⟩ := hp
  exact ⟨p, rfl, hw, hp ▸ ⟨rfl, rfl, rfl, rfl, rfl, rfl, .inl rfl⟩, hinv⟩

theorem PoolDown.step_join {s s' : PoolDown μ} (hs : s.step .join = some s') :
    s.pool.workers[s.joining]? = some .exited ∧ s' = { s with joining := s.joining + 1 } := by
  simp only [PoolDown.step, Option.ite_none_right_eq_some, Option.some.injEq] at hs
  exact ⟨hs.1, hs.2.symm⟩

theorem PoolDown.Inv.join {s : PoolDown μ} (h : s.Inv)
    (hexit : s.pool.workers[s.joining]? = some .exited) :
    PoolDown.Inv { s with joining := s.joining + 1 } where
  pool := h.pool
  shutdown := h.shutdown
  defined := h.defined
  idle := h.idle
  holder := h.holder
  joined j hj := by
    rcases Nat.lt_succ_iff_lt_or_eq.mp hj with hlt | rfl
    · exact h.joined j hlt
    · exact hexit

/-! ## The condition along a run -/

theorem uncounted_le_untested (ws : List WorkerAt) :
    ws.countP WorkerAt.uncounted ≤ ws.countP WorkerAt.untested := by
  apply List.countP_mono_left
  intro w _ hw
  cases w with
  | popped a => rfl
  | waiting => cases hw
  | woken => cases hw
  | entering => cases hw
  | locked => cases hw
  | counted a => cases hw
  | handling a => cases hw
  | exited => cases hw

/-- No statement of a worker changes whether all exit. -/
theorem PoolDown.Inv.allExit_iff {s : PoolDown μ} (h : s.Inv) {p : ThPool μ} {i t : Nat}
    {w w' : WorkerAt} (hw : s.pool.workers[i]? = some w) (hleaves : w.Leaves s.pool.size w' t)
    (hstep : s.pool.DownStep p i w' t) : p.AllExit ↔ s.pool.AllExit := by
  have hsize := h.size
  have hsem := hstep.sem
  simp only [ThPool.AllExit, hstep.queue, hstep.workers]
  by_cases hq : 0 < s.pool.queue.length
  · rw [if_pos hq, if_pos hq]
    have hcount := Crew.countP_move (q := w') WorkerAt.willWait hw
    have hwait := hleaves.willWait (by omega)
    constructor
    · intro hle
      omega
    · intro hle
      omega
  · rw [if_neg hq, if_neg hq]
    have hcount := Crew.countP_move (q := w') WorkerAt.untested hw
    by_cases hpass : w = .woken ∧ 0 < s.pool.size
    · -- the size is that of a worker before its decrement, who will come to the test
      obtain ⟨rfl, hpos⟩ := hpass
      have hunc := Crew.countP_move (q := w') WorkerAt.uncounted hw
      have hle := uncounted_le_untested (s.pool.workers.set i w')
      have hone : 0 < s.pool.workers.countP WorkerAt.untested := Crew.countP_pos_of_get hw rfl
      have hno : (if WorkerAt.woken.uncounted then 1 else 0) = 0 := rfl
      refine iff_of_false ?_ (by omega)
      omega
    · have hsame := hleaves.untested fun hwoken => by
        by_contra hne
        exact hpass ⟨hwoken, Nat.pos_of_ne_zero hne⟩
      rw [hsame] at hcount
      constructor
      · intro h0
        omega
      · intro h0
        omega

/-- A state in which all exit is no deadlock. -/
theorem ThPool.AllExit.not_deadlock {s : PoolDown μ} (h : s.pool.AllExit) : ¬ s.Deadlock := by
  rintro ⟨⟨w, hw, hne⟩, hsem, hblocked⟩
  obtain rfl := (hblocked w (List.mem_of_getElem? hw)).resolve_right hne
  simp only [ThPool.AllExit] at h
  split at h
  · have hone : 0 < s.pool.workers.countP WorkerAt.willWait := Crew.countP_pos_of_get hw rfl
    omega
  · have hone : 0 < s.pool.workers.countP WorkerAt.untested := Crew.countP_pos_of_get hw rfl
    omega

/-- A worker that leaves `sem_wait` without a token leaves it to another one. -/
theorem ThPool.AllExit.interrupt {s p : ThPool μ} {i : Nat} (h : s.AllExit)
    (hw : s.workers[i]? = some .waiting) (hstep : s.DownStep p i .woken 0) : p.AllExit := by
  have hsem : s.sem = p.sem := hstep.sem
  simp only [ThPool.AllExit, hstep.queue, hstep.workers] at h ⊢
  split at h
  · next hq =>
    rw [if_pos hq]
    have hcount := Crew.countP_move (q := .woken) WorkerAt.willWait hw
    simp only [WorkerAt.willWait, Bool.false_eq_true, if_false, if_true] at hcount
    omega
  · have hone : 0 < s.workers.countP WorkerAt.untested := Crew.countP_pos_of_get hw rfl
    omega

/-- Every step keeps the invariant, and the workers exit if they did. -/
theorem PoolDown.step_allExit (s : PoolDown μ) (act : DownAct) (s' : PoolDown μ)
    (h : s.Inv ∧ s.pool.AllExit) (hs : s.step act = some s') : s'.Inv ∧ s'.pool.AllExit := by
  obtain ⟨hinv, hall⟩ := h
  cases act with
  | worker i =>
    obtain ⟨p, w, w', t, rfl, hw, hleaves, hstep, hp⟩ := step_worker hinv hs
    exact ⟨hinv.setPool hw hleaves.ne_exited hstep hp,
      (hinv.allExit_iff hw hleaves hstep).mpr hall⟩
  | interrupt i =>
    obtain ⟨p, rfl, hw, hstep, hp⟩ := step_interrupt hinv hs
    refine ⟨hinv.setPool hw WorkerAt.noConfusion hstep hp, ?_⟩
    exact hall.interrupt hw hstep
  | join =>
    obtain ⟨hexit, rfl⟩ := step_join hs
    exact ⟨hinv.join hexit, hall⟩

/-! ## The shutdown comes to an end -/

/-- What is left to do, for the workers and for `destory_all`. -/
def PoolDown.rank (s : PoolDown μ) : Nat :=
  (s.pool.workers.map WorkerAt.toDo).sum + 4 * s.pool.sem + (s.pool.workers.length - s.joining)

/-- The steps of the program itself. -/
def DownAct.own : DownAct → Prop
  | .interrupt _ => False
  | _ => True

/-- A state in which not all workers exit stays one, and its steps are bounded. -/
theorem PoolDown.step_stays (s : PoolDown μ) (act : DownAct) (s' : PoolDown μ)
    (h : s.Inv ∧ ¬ s.pool.AllExit) (hown : act.own) (hs : s.step act = some s') :
    (s'.Inv ∧ ¬ s'.pool.AllExit) ∧ s'.rank < s.rank := by
  obtain ⟨hinv, hnot⟩ := h
  cases act with
  | worker i =>
    obtain ⟨p, w, w', t, rfl, hw, hleaves, hstep, hp⟩ := step_worker hinv hs
    refine ⟨⟨hinv.setPool hw hleaves.ne_exited hstep hp,
      fun hall => hnot ((hinv.allExit_iff hw hleaves hstep).mp hall)⟩, ?_⟩
    have hsum := Crew.sum_move (q := w') WorkerAt.toDo hw
    have hlt := hleaves.toDo_lt
    have hsem := hstep.sem
    show (p.workers.map WorkerAt.toDo).sum + 4 * p.sem + (p.workers.length - s.joining) < _
    rw [hstep.workers, List.length_set, rank]
    omega
  | interrupt i => exact absurd hown id
  | join =>
    obtain ⟨hexit, rfl⟩ := step_join hs
    refine ⟨⟨hinv.join hexit, hnot⟩, ?_⟩
    have hlt := (List.getElem?_eq_some_iff.mp hexit).1
    simp only [rank]
    omega

/-- A worker in the critical section can go on. -/
theorem ThPool.workerStep_inLock {s : ThPool μ} {i : Nat} {w : WorkerAt} (hdown : s.shutdown = true)
    (hin : w.inLock = true) : s.workerStep i w ≠ none := by
  cases w with
  | locked => simp [workerStep, hdown]
  | popped a => simp [workerStep]
  | counted a => simp [workerStep]
  | waiting => cases hin
  | woken => cases hin
  | entering => cases hin
  | handling a => cases hin
  | exited => cases hin

/-- Where the program cannot go on, every worker waits without a token or has exited. -/
theorem PoolDown.Inv.stuck {s : PoolDown μ} (h : s.Inv)
    (hstuck : ∀ act : DownAct, act.own → s.step act = none) {i : Nat} {w : WorkerAt}
    (hw : s.pool.workers[i]? = some w) : w = .waiting ∧ s.pool.sem = 0 ∨ w = .exited := by
  have hworker : ∀ {k : Nat} {v : WorkerAt}, s.pool.workers[k]? = some v →
      s.pool.workerStep k v = none := by
    intro k v hv
    have hk := hstuck (.worker k) trivial
    simpa only [PoolDown.step, ThPool.step, h.defined, Bool.false_eq_true, if_false, hv,
      Option.bind_some, Option.map_eq_none_iff] using hk
  have hi := hworker hw
  cases w with
  | waiting =>
    simp only [ThPool.workerStep, ite_eq_right_iff, reduceCtorEq, imp_false, Nat.not_lt,
      Nat.le_zero] at hi
    exact .inl ⟨rfl, hi⟩
  | entering =>
    -- the mutex is held, by a worker that can go on
    simp only [ThPool.workerStep, ite_eq_right_iff, reduceCtorEq, imp_false] at hi
    obtain ⟨x, hx⟩ := Option.ne_none_iff_exists'.mp hi
    obtain ⟨k, rfl, hk⟩ := h.holder x hx
    have hget : s.pool.workers[k]? = some s.pool.workers[k] := List.getElem?_eq_getElem hk
    have hin := (h.pool.workers k _ hget).mpr hx
    exact absurd (hworker hget) (ThPool.workerStep_inLock h.shutdown hin)
  | exited => exact .inr rfl
  | woken => cases hi
  | locked => exact absurd hi (ThPool.workerStep_inLock h.shutdown rfl)
  | popped a => cases hi
  | counted a => cases hi
  | handling a => cases hi

theorem ThPool.allExit_of_exited {s : ThPool μ} (h : ∀ w ∈ s.workers, w = .exited) :
    s.AllExit := by
  have hwait : s.workers.countP WorkerAt.willWait = 0 :=
    List.countP_eq_zero.mpr fun w hw => by rw [h w hw]; exact Bool.false_ne_true
  have huntested : s.workers.countP WorkerAt.untested = 0 :=
    List.countP_eq_zero.mpr fun w hw => by rw [h w hw]; exact Bool.false_ne_true
  unfold AllExit
  split
  · rw [hwait]
    exact Nat.zero_le _
  · exact huntested

/-- Where it cannot go on and not all have exited, it is deadlocked. -/
theorem PoolDown.Inv.deadlock {s : PoolDown μ} (h : s.Inv)
    (hstuck : ∀ act : DownAct, act.own → s.step act = none) (hnot : ¬ s.pool.AllExit) :
    s.Deadlock := by
  have hblocked : ∀ w ∈ s.pool.workers, w = .waiting ∧ s.pool.sem = 0 ∨ w = .exited := by
    intro w hw
    obtain ⟨i, hi⟩ := List.mem_iff_getElem?.mp hw
    exact h.stuck hstuck hi
  obtain ⟨i, hi⟩ : ∃ i : Nat, s.pool.workers[i]? = some .waiting := by
    by_contra hnone
    apply hnot
    apply ThPool.allExit_of_exited
    intro w hw
    rcases hblocked w hw with ⟨rfl, -⟩ | hexit
    · exact absurd (List.mem_iff_getElem?.mp hw) hnone
    · exact hexit
  have hsem : s.pool.sem = 0 := by
    rcases hblocked _ (List.mem_of_getElem? hi) with ⟨-, hsem⟩ | hexit
    · exact hsem
    · cases hexit
  have hlt : s.joining < s.pool.workers.length := by
    have hilt := (List.getElem?_eq_some_iff.mp hi).1
    by_contra hge
    have hexit := h.joined i (by omega)
    rw [hi] at hexit
    cases hexit
  refine ⟨⟨s.pool.workers[s.joining], List.getElem?_eq_getElem hlt, fun hexit => ?_⟩, hsem,
    fun w hw => (hblocked w hw).imp_left And.left⟩
  have hjoin := hstuck .join trivial
  simp only [PoolDown.step, List.getElem?_eq_getElem hlt, hexit, if_true] at hjoin
  cases hjoin

/-- A call of a producer from beginning to end. -/
def insertOnce (m : Nat) : List (PoolAct Nat) := .call 0 m :: List.replicate 5 (.producer 0)

end Mgx
