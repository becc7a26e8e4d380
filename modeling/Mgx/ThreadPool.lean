import Mgx.Lib.Crew
import Mgx.Lib.Runs
import Mgx.Comm

/-
  The thread pool.

  Producers push a message under the mutex and then post the semaphore; workers
  wait for the semaphore, look at the counter without the mutex, and pop under
  it. Every statement that touches what the threads share is a step.

  Correspondence (C++ ↔ Lean), `misc/mgx_thread_pool.cpp`:
    where a worker is in `th_func`                        ↔ `WorkerAt`
    its next statement                                    ↔ `ThPool.workerStep`
    where a producer is in `insert_msg_to_queue_and_signal`,
      with `signal_to_th`                                 ↔ `ProducerAt`
    its next statement                                    ↔ `ThPool.producerStep`
    `m_msg_queue`, `m_msg_queue_size`, `m_th_pool_sem`    ↔ `queue`, `size`, `sem`
    who holds `m_mutex`                                   ↔ `ThPool.mutex`
    `m_shutdown = true` in `destory_all`                  ↔ `PoolAct.shutdown`
    `sem_wait` returning with `EINTR`                     ↔ `PoolAct.interrupt`

  A buffer is named by the number of its push. `m_msg_queue_size` has no
  initializer; `g_mgx_th_pool` is a global, so it starts at 0. `m_running_cnt` is
  read by a log line only and left out. A run stops where the behaviour is
  undefined: `front` and `pop` of an empty queue.

  What is proved: `th_pool_delivers_once`. As long as `sem_wait` returns with a
  token only and the pool is not shut down, the queue holds a message for every
  token, in the semaphore or in the hands of a worker, so no token is lost and
  every message is popped in its turn by one worker.
-/
namespace Mgx
open Runs

/-- Where a worker is: in `sem_wait`; before the test of `m_msg_queue_size`; before the lock; with
the lock; with the buffer popped; with the counter decremented; handling the buffer after the
unlock; gone. -/
inductive WorkerAt where
  | waiting
  | woken
  | entering
  | locked
  | popped (a : Addr)
  | counted (a : Addr)
  | handling (a : Addr)
  | exited
  deriving DecidableEq, Repr

/-- Where a producer is: not in a call; before the lock; with the lock; with the buffer pushed; with
the counter incremented; before `sem_post`. -/
inductive ProducerAt (μ : Type) where
  | idle
  | calling (m : μ)
  | locked (m : μ)
  | pushed
  | counted
  | posting
  deriving DecidableEq, Repr

/-- A thread that can hold the mutex. -/
inductive Holder where
  | worker (i : Nat)
  | producer (j : Nat)
  deriving DecidableEq, Repr

/-- The pool. `inserted`, `popped` and `handled` are histories: the messages pushed, and the buffers
popped and handled, each with the worker. -/
structure ThPool (μ : Type) where
  queue : List Addr
  size : Nat
  sem : Nat
  mutex : Option Holder
  shutdown : Bool
  workers : List WorkerAt
  producers : List (ProducerAt μ)
  inserted : List μ
  popped : List (Nat × Addr)
  handled : List (Nat × Addr)
  undef : Bool

variable {μ : Type}

/-- Worker `i` goes on to `w`. -/
def ThPool.setWorker (s : ThPool μ) (i : Nat) (w : WorkerAt) : ThPool μ :=
  { s with workers := s.workers.set i w }

/-- Producer `j` goes on to `p`. -/
def ThPool.setProducer (s : ThPool μ) (j : Nat) (p : ProducerAt μ) : ThPool μ :=
  { s with producers := s.producers.set j p }

/-- `m_msg_queue_size--` on a `size_type`. -/
def decSize (n : Nat) : Nat := if n = 0 then 2 ^ 64 - 1 else n - 1

/-- The next statement of a worker. -/
def ThPool.workerStep (s : ThPool μ) (i : Nat) : WorkerAt → Option (ThPool μ)
  | .waiting => if 0 < s.sem then some { s.setWorker i .woken with sem := s.sem - 1 } else none
  -- without the mutex, and where the test fails the token is gone
  | .woken => some (s.setWorker i (if s.size > 0 then .entering else .waiting))
  | .entering =>
    if s.mutex = none then some { s.setWorker i .locked with mutex := some (.worker i) } else none
  | .locked =>
    if s.shutdown then some { s.setWorker i .exited with mutex := none }
    else match s.queue with
      | [] => some { s with undef := true }
      | a :: rest =>
        some { s.setWorker i (.popped a) with queue := rest, popped := s.popped ++ [(i, a)] }
  | .popped a => some { s.setWorker i (.counted a) with size := decSize s.size }
  | .counted a => some { s.setWorker i (.handling a) with mutex := none }
  | .handling a => some { s.setWorker i .waiting with handled := s.handled ++ [(i, a)] }
  | .exited => none

/-- The next statement of a producer. -/
def ThPool.producerStep (s : ThPool μ) (j : Nat) : ProducerAt μ → Option (ThPool μ)
  | .idle => none
  | .calling m =>
    if s.mutex = none then some { s.setProducer j (.locked m) with mutex := some (.producer j) }
    else none
  | .locked m => some { s.setProducer j .pushed with
      queue := s.queue ++ [s.inserted.length], inserted := s.inserted ++ [m] }
  | .pushed => some { s.setProducer j .counted with size := s.size + 1 }
  | .counted => some { s.setProducer j .posting with mutex := none }
  | .posting => some { s.setProducer j .idle with sem := s.sem + 1 }

/-- What can happen. -/
inductive PoolAct (μ : Type) where
  | worker (i : Nat)
  | producer (j : Nat)
  | call (j : Nat) (m : μ)
  | interrupt (i : Nat)
  | shutdown
  deriving DecidableEq, Repr

/-- One step. -/
def ThPool.step (s : ThPool μ) (act : PoolAct μ) : Option (ThPool μ) :=
  if s.undef then none
  else match act with
    | .worker i => s.workers[i]?.bind (s.workerStep i)
    | .producer j => s.producers[j]?.bind (s.producerStep j)
    | .call j m => s.producers[j]?.bind fun p =>
        match p with
        | .idle => some (s.setProducer j (.calling m))
        | _ => none
    | .interrupt i => s.workers[i]?.bind fun w =>
        if w = .waiting then some (s.setWorker i .woken) else none
    | .shutdown => some { s with shutdown := true }

/-- After `create`, with `n` workers, and `k` threads that insert messages. -/
def ThPool.start (μ : Type) (n k : Nat) : ThPool μ where
  queue := []
  size := 0
  sem := 0
  mutex := none
  shutdown := false
  workers := List.replicate n .waiting
  producers := List.replicate k .idle
  inserted := []
  popped := []
  handled := []
  undef := false

/-- No interrupted wait and no shutdown. -/
def PoolAct.Undisturbed : PoolAct μ → Prop
  | .worker _ => True
  | .producer _ => True
  | .call _ _ => True
  | .interrupt _ => False
  | .shutdown => False

instance : ∀ act : PoolAct μ, Decidable act.Undisturbed
  | .worker _ => isTrue trivial
  | .producer _ => isTrue trivial
  | .call _ _ => isTrue trivial
  | .interrupt _ => isFalse id
  | .shutdown => isFalse id

/-! ## Places -/

/-- The worker is inside the critical section. -/
def WorkerAt.inLock : WorkerAt → Bool
  | .locked | .popped _ | .counted _ => true
  | _ => false

/-- The worker has taken a token and popped nothing for it yet. -/
def WorkerAt.hasToken : WorkerAt → Bool
  | .woken | .entering | .locked => true
  | _ => false

/-- The worker has popped and not yet decremented the counter. -/
def WorkerAt.uncounted : WorkerAt → Bool
  | .popped _ => true
  | _ => false

/-- The buffer a worker has in its hands. -/
def WorkerAt.inHand : WorkerAt → Option Addr
  | .popped a | .counted a | .handling a => some a
  | _ => none

/-- The producer is inside the critical section. -/
def ProducerAt.inLock : ProducerAt μ → Bool
  | .locked _ | .pushed | .counted => true
  | _ => false

/-- The producer is between its push and its post. -/
def ProducerAt.owesPost : ProducerAt μ → Bool
  | .pushed | .counted | .posting => true
  | _ => false

/-- The producer has pushed and not yet incremented the counter. -/
def ProducerAt.uncounted : ProducerAt μ → Bool
  | .pushed => true
  | _ => false

/-- The buffers worker `i` is named with in a history. -/
def byWorker (i : Nat) (l : List (Nat × Addr)) : List Addr :=
  (l.filter fun x => x.1 == i).map Prod.snd

theorem byWorker_append_self (i : Nat) (l : List (Nat × Addr)) (a : Addr) :
    byWorker i (l ++ [(i, a)]) = byWorker i l ++ [a] := by
  simp [byWorker]

theorem byWorker_append_other {i k : Nat} (h : k ≠ i) (l : List (Nat × Addr)) (a : Addr) :
    byWorker k (l ++ [(i, a)]) = byWorker k l := by
  simp [byWorker, Ne.symm h]

/-! ## The invariant of all runs -/

theorem worker_injective : Function.Injective Holder.worker := fun _ _ h => Holder.worker.inj h

theorem producer_injective : Function.Injective Holder.producer :=
  fun _ _ h => Holder.producer.inj h

/-- The mutex guards its sections, the counter lags behind the queue by the statement in progress,
buffers are popped in the order of their pushes, and each worker handles what it pops. -/
structure ThPool.Inv (s : ThPool μ) : Prop where
  workers : Crew.LockOk s.workers WorkerAt.inLock Holder.worker s.mutex
  producers : Crew.LockOk s.producers ProducerAt.inLock Holder.producer s.mutex
  size : s.size + s.producers.countP ProducerAt.uncounted =
    s.queue.length + s.workers.countP WorkerAt.uncounted
  order : s.popped.map Prod.snd ++ s.queue = List.range s.inserted.length
  hands : ∀ i w, s.workers[i]? = some w →
    byWorker i s.popped = byWorker i s.handled ++ w.inHand.toList

/-- A worker that only moves, and keeps what it has in its hands. -/
theorem ThPool.Inv.hands_stay {s : ThPool μ} (h : s.Inv) {i : Nat} {w w' : WorkerAt}
    (hw : s.workers[i]? = some w) (hsame : w'.inHand = w.inHand) :
    ∀ k r, (s.workers.set i w')[k]? = some r →
      byWorker k s.popped = byWorker k s.handled ++ r.inHand.toList := by
  intro k r hk
  obtain ⟨rfl, rfl⟩ | ⟨-, hk⟩ := (Crew.getElem?_move hw).mp hk
  · rw [hsame]
    exact h.hands k w hw
  · exact h.hands k r hk

/-- While a worker holds the mutex no producer is in the critical section. -/
theorem ThPool.Inv.worker_alone {s : ThPool μ} (h : s.Inv) {i : Nat} {w : WorkerAt}
    (hw : s.workers[i]? = some w) (hin : w.inLock = true) :
    s.producers.countP ProducerAt.uncounted = 0 := by
  have hmutex := (h.workers i w hw).mp hin
  apply h.producers.countP_eq_zero
  · intro j
    rw [hmutex]
    simp
  · intro p hp
    cases p <;> simp_all [ProducerAt.uncounted, ProducerAt.inLock]

/-- A worker that moves, and whose decrement stays done or undone. -/
theorem ThPool.Inv.size_stay {s : ThPool μ} (h : s.Inv) {i : Nat} {w w' : WorkerAt}
    (hw : s.workers[i]? = some w) (hsame : w'.uncounted = w.uncounted) :
    s.size + s.producers.countP ProducerAt.uncounted =
      s.queue.length + (s.workers.set i w').countP WorkerAt.uncounted := by
  have hcount := Crew.countP_move (q := w') WorkerAt.uncounted hw
  have hsize := h.size
  rw [hsame] at hcount
  omega

/-- A worker that only moves, outside the critical section or inside. -/
theorem ThPool.Inv.worker_stay {s : ThPool μ} (h : s.Inv) {i : Nat} {w w' : WorkerAt}
    (hw : s.workers[i]? = some w) (hlock : w'.inLock = w.inLock) (hhand : w'.inHand = w.inHand)
    (hunc : w'.uncounted = w.uncounted) : (s.setWorker i w').Inv :=
  ⟨h.workers.stay hw hlock, h.producers, h.size_stay hw hunc, h.order, h.hands_stay hw hhand⟩

/-- The pop: the counter is behind by one now, and the buffer is in the worker's hands. -/
theorem ThPool.Inv.pop {s : ThPool μ} {i : Nat} {a : Addr} {rest : List Addr} (h : s.Inv)
    (hw : s.workers[i]? = some .locked) (hq : s.queue = a :: rest) : ThPool.Inv
      { s.setWorker i (.popped a) with queue := rest, popped := s.popped ++ [(i, a)] } := by
  refine ⟨h.workers.stay hw rfl, h.producers, ?_, ?_, ?_⟩
  · show s.size + s.producers.countP _ =
      rest.length + (s.workers.set i (.popped a)).countP _
    have hcount := Crew.countP_move (q := .popped a) WorkerAt.uncounted hw
    have hsize := h.size
    rw [hq, List.length_cons] at hsize
    simp only [WorkerAt.uncounted, Bool.false_eq_true, if_false, if_true] at hcount
    omega
  · show (s.popped ++ [(i, a)]).map Prod.snd ++ rest = _
    have horder := h.order
    rw [hq] at horder
    rw [List.map_append, List.append_assoc]
    exact horder
  · intro k r hk
    obtain ⟨rfl, rfl⟩ | ⟨hne, hk⟩ := (Crew.getElem?_move hw).mp hk
    · show byWorker k (s.popped ++ [(k, a)]) = byWorker k s.handled ++ [a]
      rw [byWorker_append_self, h.hands k _ hw]
      simp [WorkerAt.inHand]
    · show byWorker k (s.popped ++ [(i, a)]) = _
      rw [byWorker_append_other hne]
      exact h.hands k r hk

/-- The decrement: no producer is inside, so the counter is not 0 and does not wrap. -/
theorem ThPool.Inv.count {s : ThPool μ} {i : Nat} {a : Addr} (h : s.Inv)
    (hw : s.workers[i]? = some (.popped a)) :
    ThPool.Inv { s.setWorker i (.counted a) with size := decSize s.size } := by
  refine ⟨h.workers.stay hw rfl, h.producers, ?_, h.order, h.hands_stay hw rfl⟩
  show decSize s.size + s.producers.countP _ =
    s.queue.length + (s.workers.set i (.counted a)).countP _
  have hcount := Crew.countP_move (q := .counted a) WorkerAt.uncounted hw
  have hsize := h.size
  have halone := h.worker_alone hw rfl
  simp only [WorkerAt.uncounted, Bool.false_eq_true, if_false, if_true] at hcount
  have hpos : s.size ≠ 0 := by omega
  rw [decSize, if_neg hpos]
  omega

/-- The buffer goes from the worker's hands to what is handled. -/
theorem ThPool.Inv.handle {s : ThPool μ} {i : Nat} {a : Addr} (h : s.Inv)
    (hw : s.workers[i]? = some (.handling a)) :
    ThPool.Inv { s.setWorker i .waiting with handled := s.handled ++ [(i, a)] } := by
  refine ⟨h.workers.stay hw rfl, h.producers, h.size_stay hw rfl, h.order, ?_⟩
  intro k r hk
  obtain ⟨rfl, rfl⟩ | ⟨hne, hk⟩ := (Crew.getElem?_move hw).mp hk
  · show byWorker k s.popped = byWorker k (s.handled ++ [(k, a)]) ++ []
    rw [byWorker_append_self, h.hands k _ hw, List.append_nil]
    rfl
  · show _ = byWorker k (s.handled ++ [(i, a)]) ++ _
    rw [byWorker_append_other hne]
    exact h.hands k r hk

/-- A statement of a worker keeps the invariant. -/
theorem ThPool.workerStep_inv {s s' : ThPool μ} {i : Nat} {w : WorkerAt} (h : s.Inv)
    (hw : s.workers[i]? = some w) (hs : s.workerStep i w = some s') : s'.Inv := by
  cases w with
  | waiting =>
    simp only [workerStep, Option.ite_none_right_eq_some, Option.some.injEq] at hs
    obtain ⟨-, rfl⟩ := hs
    have hstay : (s.setWorker i .woken).Inv := h.worker_stay hw rfl rfl rfl
    exact ⟨hstay.workers, hstay.producers, hstay.size, hstay.order, hstay.hands⟩
  | woken =>
    simp only [workerStep, Option.some.injEq] at hs
    subst hs
    split
    · exact h.worker_stay hw rfl rfl rfl
    · exact h.worker_stay hw rfl rfl rfl
  | entering =>
    simp only [workerStep, Option.ite_none_right_eq_some, Option.some.injEq] at hs
    obtain ⟨hfree, rfl⟩ := hs
    have hworkers := h.workers
    have hproducers := h.producers
    rw [hfree] at hworkers hproducers
    exact ⟨hworkers.acquire worker_injective hw rfl, hproducers.of_other (by simp) (by simp),
      h.size_stay hw rfl, h.order, h.hands_stay hw rfl⟩
  | locked =>
    have hmutex := (h.workers i _ hw).mp rfl
    simp only [workerStep] at hs
    split at hs
    · obtain rfl := (Option.some.inj hs).symm
      exact ⟨h.workers.release worker_injective hw rfl rfl,
        h.producers.of_other (by simp [hmutex]) (by simp), h.size_stay hw rfl, h.order,
        h.hands_stay hw rfl⟩
    · split at hs
      · obtain rfl := (Option.some.inj hs).symm
        exact ⟨h.workers, h.producers, h.size, h.order, h.hands⟩
      · next a rest hq =>
        obtain rfl := (Option.some.inj hs).symm
        exact h.pop hw hq
  | popped a =>
    simp only [workerStep, Option.some.injEq] at hs
    subst hs
    exact h.count hw
  | counted a =>
    have hmutex := (h.workers i _ hw).mp rfl
    simp only [workerStep, Option.some.injEq] at hs
    subst hs
    exact ⟨h.workers.release worker_injective hw rfl rfl,
      h.producers.of_other (by simp [hmutex]) (by simp), h.size_stay hw rfl, h.order,
      h.hands_stay hw rfl⟩
  | handling a =>
    simp only [workerStep, Option.some.injEq] at hs
    subst hs
    exact h.handle hw
  | exited => simp [workerStep] at hs

/-- A producer moves: the counter and the queue grow by what it has done. -/
theorem ThPool.Inv.producer_move {s : ThPool μ} (h : s.Inv) {j : Nat} {p p' : ProducerAt μ}
    (hp : s.producers[j]? = some p) {size length : Nat}
    (hbalance : size + s.queue.length + (if p'.uncounted then 1 else 0) =
      s.size + length + (if p.uncounted then 1 else 0)) :
    size + (s.producers.set j p').countP ProducerAt.uncounted =
      length + s.workers.countP WorkerAt.uncounted := by
  have hcount := Crew.countP_move (q := p') ProducerAt.uncounted hp
  have hsize := h.size
  omega

/-- So does a statement of a producer. -/
theorem ThPool.producerStep_inv {s s' : ThPool μ} {j : Nat} {p : ProducerAt μ} (h : s.Inv)
    (hp : s.producers[j]? = some p) (hs : s.producerStep j p = some s') : s'.Inv := by
  cases p with
  | idle => simp [producerStep] at hs
  | calling m =>
    simp only [producerStep, Option.ite_none_right_eq_some, Option.some.injEq] at hs
    obtain ⟨hfree, rfl⟩ := hs
    have hworkers := h.workers
    have hproducers := h.producers
    rw [hfree] at hworkers hproducers
    exact ⟨hworkers.of_other (by simp) (by simp), hproducers.acquire producer_injective hp rfl,
      h.producer_move hp rfl, h.order, h.hands⟩
  | locked m =>
    simp only [producerStep, Option.some.injEq] at hs
    subst hs
    refine ⟨h.workers, h.producers.stay hp rfl, h.producer_move hp ?_, ?_, h.hands⟩
    · show s.size + s.queue.length + 1 = s.size + (s.queue ++ [s.inserted.length]).length + 0
      rw [List.length_append, List.length_singleton]
      omega
    · show s.popped.map Prod.snd ++ (s.queue ++ [s.inserted.length]) =
        List.range (s.inserted ++ [m]).length
      rw [List.length_append, List.length_singleton, List.range_succ, ← h.order,
        List.append_assoc]
  | pushed =>
    simp only [producerStep, Option.some.injEq] at hs
    subst hs
    refine ⟨h.workers, h.producers.stay hp rfl, h.producer_move hp ?_, h.order, h.hands⟩
    show s.size + 1 + s.queue.length + 0 = s.size + s.queue.length + 1
    omega
  | counted =>
    have hmutex := (h.producers j _ hp).mp rfl
    simp only [producerStep, Option.some.injEq] at hs
    subst hs
    exact ⟨h.workers.of_other (by simp [hmutex]) (by simp),
      h.producers.release producer_injective hp rfl rfl, h.producer_move hp rfl, h.order, h.hands⟩
  | posting =>
    simp only [producerStep, Option.some.injEq] at hs
    subst hs
    exact ⟨h.workers, h.producers.stay hp rfl, h.producer_move hp rfl, h.order, h.hands⟩

/-- Every step keeps the invariant. -/
theorem ThPool.step_inv (s : ThPool μ) (act : PoolAct μ) (s' : ThPool μ) (h : s.Inv)
    (hs : s.step act = some s') : s'.Inv := by
  unfold step at hs
  split at hs
  case isTrue => simp at hs
  case isFalse hdef =>
  cases act with
  | worker i =>
    obtain ⟨w, hw, hs⟩ := Option.bind_eq_some_iff.mp hs
    exact workerStep_inv h hw hs
  | producer j =>
    obtain ⟨p, hp, hs⟩ := Option.bind_eq_some_iff.mp hs
    exact producerStep_inv h hp hs
  | call j m =>
    obtain ⟨p, hp, hs⟩ := Option.bind_eq_some_iff.mp hs
    cases p with
    | idle =>
      obtain rfl := (Option.some.inj hs).symm
      exact ⟨h.workers, h.producers.stay hp rfl, h.producer_move hp rfl, h.order, h.hands⟩
    | calling _ => cases hs
    | locked _ => cases hs
    | pushed => cases hs
    | counted => cases hs
    | posting => cases hs
  | interrupt i =>
    obtain ⟨w, hw, hs⟩ := Option.bind_eq_some_iff.mp hs
    simp only [Option.ite_none_right_eq_some, Option.some.injEq] at hs
    obtain ⟨rfl, rfl⟩ := hs
    exact h.worker_stay hw rfl rfl rfl
  | shutdown =>
    obtain rfl := (Option.some.inj hs).symm
    exact ⟨h.workers, h.producers, h.size, h.order, h.hands⟩

theorem ThPool.start_inv (n k : Nat) : (ThPool.start μ n k).Inv := by
  have hworker : ∀ (i : Nat) w, (List.replicate n WorkerAt.waiting)[i]? = some w → w = .waiting :=
    fun i w hw => List.eq_of_mem_replicate (List.mem_of_getElem? hw)
  have hproducer : ∀ (j : Nat) p, (List.replicate k (ProducerAt.idle (μ := μ)))[j]? = some p →
      p = .idle := fun j p hp => List.eq_of_mem_replicate (List.mem_of_getElem? hp)
  refine ⟨?_, ?_, ?_, rfl, ?_⟩
  · intro i w hw
    rw [hworker i w hw]
    simp [start, WorkerAt.inLock]
  · intro j p hp
    rw [hproducer j p hp]
    simp [start, ProducerAt.inLock]
  · show 0 + (List.replicate k ProducerAt.idle).countP _ =
      0 + (List.replicate n WorkerAt.waiting).countP _
    rw [List.countP_replicate, List.countP_replicate]
    rfl
  · intro i w hw
    rw [hworker i w hw]
    rfl

/-- What a worker has in its hands was popped. -/
theorem ThPool.Inv.inHand_popped {s : ThPool μ} (h : s.Inv) {w : WorkerAt} (hw : w ∈ s.workers)
    {a : Addr} (ha : w.inHand = some a) : a ∈ s.popped.map Prod.snd := by
  obtain ⟨i, hi⟩ := List.mem_iff_getElem?.mp hw
  have hmem : a ∈ byWorker i s.popped := by
    rw [h.hands i w hi, ha]
    exact List.mem_append_right _ (List.mem_singleton_self a)
  exact (List.filter_sublist.map Prod.snd).subset hmem

/-! ## What a step leaves alone -/

/-- A statement of worker `i` moves that worker, and takes the mutex, gives it back, or leaves it. -/
structure ThPool.WorkerFrame (s s' : ThPool μ) (i : Nat) : Prop where
  workers : s'.workers.length = s.workers.length
  producers : s'.producers = s.producers
  shutdown : s'.shutdown = s.shutdown
  undef : s.shutdown = true → s'.undef = s.undef
  mutex : s'.mutex = s.mutex ∨ s'.mutex = none ∨ s'.mutex = some (.worker i)

theorem ThPool.workerStep_frame {s s' : ThPool μ} {i : Nat} {w : WorkerAt}
    (hs : s.workerStep i w = some s') : s.WorkerFrame s' i := by
  cases w with
  | waiting =>
    simp only [workerStep, Option.ite_none_right_eq_some, Option.some.injEq] at hs
    obtain ⟨-, rfl⟩ := hs
    exact ⟨List.length_set, rfl, rfl, fun _ => rfl, .inl rfl⟩
  | woken =>
    obtain rfl := (Option.some.inj hs).symm
    exact ⟨List.length_set, rfl, rfl, fun _ => rfl, .inl rfl⟩
  | entering =>
    simp only [workerStep, Option.ite_none_right_eq_some, Option.some.injEq] at hs
    obtain ⟨-, rfl⟩ := hs
    exact ⟨List.length_set, rfl, rfl, fun _ => rfl, .inr (.inr rfl)⟩
  | locked =>
    simp only [workerStep] at hs
    split at hs
    · obtain rfl := (Option.some.inj hs).symm
      exact ⟨List.length_set, rfl, rfl, fun _ => rfl, .inr (.inl rfl)⟩
    · next hrunning =>
      split at hs
      · obtain rfl := (Option.some.inj hs).symm
        exact ⟨rfl, rfl, rfl, fun hdown => absurd hdown hrunning, .inl rfl⟩
      · obtain rfl := (Option.some.inj hs).symm
        exact ⟨List.length_set, rfl, rfl, fun _ => rfl, .inl rfl⟩
  | popped a =>
    obtain rfl := (Option.some.inj hs).symm
    exact ⟨List.length_set, rfl, rfl, fun _ => rfl, .inl rfl⟩
  | counted a =>
    obtain rfl := (Option.some.inj hs).symm
    exact ⟨List.length_set, rfl, rfl, fun _ => rfl, .inr (.inl rfl)⟩
  | handling a =>
    obtain rfl := (Option.some.inj hs).symm
    exact ⟨List.length_set, rfl, rfl, fun _ => rfl, .inl rfl⟩
  | exited => cases hs

/-- A statement of producer `j` leaves the workers alone, and takes nothing from the queue. -/
structure ThPool.ProducerFrame (s s' : ThPool μ) (j : Nat) : Prop where
  workers : s'.workers = s.workers
  producers : s'.producers.length = s.producers.length
  popped : s'.popped = s.popped
  queue : s.queue.length ≤ s'.queue.length
  shutdown : s'.shutdown = s.shutdown
  undef : s'.undef = s.undef
  mutex : s'.mutex = s.mutex ∨ s'.mutex = none ∨ s'.mutex = some (.producer j)

theorem ThPool.producerStep_frame {s s' : ThPool μ} {j : Nat} {p : ProducerAt μ}
    (hs : s.producerStep j p = some s') : s.ProducerFrame s' j := by
  have hqueue := Nat.le_refl s.queue.length
  cases p with
  | idle => cases hs
  | calling m =>
    simp only [producerStep, Option.ite_none_right_eq_some, Option.some.injEq] at hs
    obtain ⟨-, rfl⟩ := hs
    exact ⟨rfl, List.length_set, rfl, hqueue, rfl, rfl, .inr (.inr rfl)⟩
  | locked m =>
    obtain rfl := (Option.some.inj hs).symm
    have hpush : s.queue.length ≤ (s.queue ++ [s.inserted.length]).length := by
      rw [List.length_append]
      exact Nat.le_add_right _ _
    exact ⟨rfl, List.length_set, rfl, hpush, rfl, rfl, .inl rfl⟩
  | pushed =>
    obtain rfl := (Option.some.inj hs).symm
    exact ⟨rfl, List.length_set, rfl, hqueue, rfl, rfl, .inl rfl⟩
  | counted =>
    obtain rfl := (Option.some.inj hs).symm
    exact ⟨rfl, List.length_set, rfl, hqueue, rfl, rfl, .inr (.inl rfl)⟩
  | posting =>
    obtain rfl := (Option.some.inj hs).symm
    exact ⟨rfl, List.length_set, rfl, hqueue, rfl, rfl, .inl rfl⟩

/-! ## What a step pops -/

/-- Worker `i` pops the head `a` of the queue. -/
structure ThPool.Pops (s s' : ThPool μ) (i a : Nat) : Prop where
  locked : s.workers[i]? = some .locked
  running : s.shutdown = false
  head : s.queue.head? = some a
  popped : s'.popped = s.popped ++ [(i, a)]
  workers : s'.workers = s.workers.set i (.popped a)

/-- Nothing is popped, and nothing new is in anybody's hands. -/
structure ThPool.PopsNothing (s s' : ThPool μ) : Prop where
  popped : s'.popped = s.popped
  length : s'.workers.length = s.workers.length
  hands : ∀ r ∈ s'.workers, ∀ a, r.inHand = some a → ∃ v ∈ s.workers, v.inHand = some a

/-- A worker moves, and has in its hands what it had, or nothing. -/
theorem ThPool.popsNothing_move {s s' : ThPool μ} {i : Nat} {w w' : WorkerAt}
    (hw : s.workers[i]? = some w) (hpopped : s'.popped = s.popped)
    (hworkers : s'.workers = s.workers.set i w')
    (hsame : w'.inHand = none ∨ w'.inHand = w.inHand) : s.PopsNothing s' := by
  refine ⟨hpopped, by rw [hworkers, List.length_set], fun r hr a ha => ?_⟩
  rw [hworkers] at hr
  rcases List.mem_or_eq_of_mem_set hr with hr | rfl
  · exact ⟨r, hr, ha⟩
  · rcases hsame with hnone | hsame
    · rw [hnone] at ha
      cases ha
    · exact ⟨w, List.mem_of_getElem? hw, hsame.symm.trans ha⟩

/-- No worker moves. -/
theorem ThPool.popsNothing_stay {s s' : ThPool μ} (hpopped : s'.popped = s.popped)
    (hworkers : s'.workers = s.workers) : s.PopsNothing s' :=
  ⟨hpopped, congrArg List.length hworkers, fun r hr _ ha => ⟨r, hworkers ▸ hr, ha⟩⟩

theorem ThPool.workerStep_pops {s s' : ThPool μ} {i : Nat} {w : WorkerAt}
    (hw : s.workers[i]? = some w) (hs : s.workerStep i w = some s') :
    (∃ a, s.Pops s' i a) ∨ s.PopsNothing s' := by
  cases w with
  | waiting =>
    simp only [workerStep, Option.ite_none_right_eq_some, Option.some.injEq] at hs
    obtain ⟨-, rfl⟩ := hs
    exact .inr (popsNothing_move hw rfl rfl (.inl rfl))
  | woken =>
    simp only [workerStep, Option.some.injEq] at hs
    subst hs
    split
    · exact .inr (popsNothing_move hw rfl rfl (.inl rfl))
    · exact .inr (popsNothing_move hw rfl rfl (.inl rfl))
  | entering =>
    simp only [workerStep, Option.ite_none_right_eq_some, Option.some.injEq] at hs
    obtain ⟨-, rfl⟩ := hs
    exact .inr (popsNothing_move hw rfl rfl (.inl rfl))
  | locked =>
    simp only [workerStep] at hs
    split at hs
    · obtain rfl := (Option.some.inj hs).symm
      exact .inr (popsNothing_move hw rfl rfl (.inl rfl))
    · next hrunning =>
      split at hs
      · obtain rfl := (Option.some.inj hs).symm
        exact .inr (popsNothing_stay rfl rfl)
      · next a rest hq =>
        obtain rfl := (Option.some.inj hs).symm
        exact .inl ⟨a, hw, Bool.eq_false_iff.mpr hrunning, by rw [hq, List.head?_cons], rfl, rfl⟩
  | popped a =>
    simp only [workerStep, Option.some.injEq] at hs
    subst hs
    exact .inr (popsNothing_move hw rfl rfl (.inr rfl))
  | counted a =>
    simp only [workerStep, Option.some.injEq] at hs
    subst hs
    exact .inr (popsNothing_move hw rfl rfl (.inr rfl))
  | handling a =>
    simp only [workerStep, Option.some.injEq] at hs
    subst hs
    exact .inr (popsNothing_move hw rfl rfl (.inl rfl))
  | exited => simp [workerStep] at hs

/-- A step is a pop by a worker, or pops nothing. -/
theorem ThPool.step_pops {s s' : ThPool μ} {act : PoolAct μ} (hs : s.step act = some s') :
    (∃ i a, act = .worker i ∧ s.Pops s' i a) ∨ s.PopsNothing s' := by
  unfold step at hs
  split at hs
  case isTrue => simp at hs
  case isFalse hdef =>
  cases act with
  | worker i =>
    obtain ⟨w, hw, hs⟩ := Option.bind_eq_some_iff.mp hs
    exact (workerStep_pops hw hs).imp_left fun ⟨a, hpop⟩ => ⟨i, a, rfl, hpop⟩
  | producer j =>
    obtain ⟨p, -, hs⟩ := Option.bind_eq_some_iff.mp hs
    have hframe := producerStep_frame hs
    exact .inr (popsNothing_stay hframe.popped hframe.workers)
  | call j m =>
    obtain ⟨p, -, hs⟩ := Option.bind_eq_some_iff.mp hs
    cases p with
    | idle =>
      obtain rfl := (Option.some.inj hs).symm
      exact .inr (popsNothing_stay rfl rfl)
    | calling _ => cases hs
    | locked _ => cases hs
    | pushed => cases hs
    | counted => cases hs
    | posting => cases hs
  | interrupt i =>
    obtain ⟨w, hw, hs⟩ := Option.bind_eq_some_iff.mp hs
    simp only [Option.ite_none_right_eq_some, Option.some.injEq] at hs
    obtain ⟨rfl, rfl⟩ := hs
    exact .inr (popsNothing_move hw rfl rfl (.inl rfl))
  | shutdown =>
    obtain rfl := (Option.some.inj hs).symm
    exact .inr (popsNothing_stay rfl rfl)

/-- Workers neither come nor go. -/
theorem ThPool.step_length {s s' : ThPool μ} {act : PoolAct μ} (hs : s.step act = some s') :
    s'.workers.length = s.workers.length := by
  obtain ⟨i, a, -, hpop⟩ | hnone := step_pops hs
  · rw [hpop.workers, List.length_set]
  · exact hnone.length

/-! ## No token is lost -/

/-- Every message of the queue has its token: in the semaphore, with a worker, or still with the
producer. -/
structure ThPool.Tokens (s : ThPool μ) : Prop where
  tokens : s.queue.length = s.sem + s.workers.countP WorkerAt.hasToken +
    s.producers.countP ProducerAt.owesPost
  running : s.shutdown = false
  defined : s.undef = false

/-- A worker that has taken a token finds the queue nonempty, and the counter shows it. -/
theorem ThPool.Tokens.queue_pos {s : ThPool μ} (h : s.Inv) (ht : s.Tokens) {i : Nat}
    {w : WorkerAt} (hw : s.workers[i]? = some w) (htoken : w.hasToken = true) :
    0 < s.queue.length ∧ 0 < s.size := by
  have hone := Crew.countP_pos_of_get hw htoken
  have hle : s.producers.countP ProducerAt.uncounted ≤ s.producers.countP ProducerAt.owesPost := by
    apply List.countP_mono_left
    intro p _ hp
    cases p <;> simp_all [ProducerAt.uncounted, ProducerAt.owesPost]
  have htokens := ht.tokens
  have hsize := h.size
  omega

/-- A worker moves: what it gains or gives up is what the queue and the semaphore lose or gain. -/
theorem ThPool.Tokens.worker_move {s s' : ThPool μ} (ht : s.Tokens) {i : Nat} {w w' : WorkerAt}
    (hw : s.workers[i]? = some w) (hworkers : s'.workers = s.workers.set i w')
    (hproducers : s'.producers = s.producers)
    (hsame : s'.shutdown = s.shutdown ∧ s'.undef = s.undef)
    (hbalance : s'.queue.length + s.sem + (if w.hasToken then 1 else 0) =
      s.queue.length + s'.sem + (if w'.hasToken then 1 else 0)) : s'.Tokens := by
  refine ⟨?_, hsame.1.trans ht.running, hsame.2.trans ht.defined⟩
  have hcount := Crew.countP_move (q := w') WorkerAt.hasToken hw
  have htokens := ht.tokens
  rw [hworkers, hproducers]
  omega

/-- A producer moves. -/
theorem ThPool.Tokens.producer_move {s s' : ThPool μ} (ht : s.Tokens) {j : Nat}
    {p p' : ProducerAt μ} (hp : s.producers[j]? = some p)
    (hproducers : s'.producers = s.producers.set j p') (hworkers : s'.workers = s.workers)
    (hsame : s'.shutdown = s.shutdown ∧ s'.undef = s.undef)
    (hbalance : s'.queue.length + s.sem + (if p.owesPost then 1 else 0) =
      s.queue.length + s'.sem + (if p'.owesPost then 1 else 0)) : s'.Tokens := by
  refine ⟨?_, hsame.1.trans ht.running, hsame.2.trans ht.defined⟩
  have hcount := Crew.countP_move (q := p') ProducerAt.owesPost hp
  have htokens := ht.tokens
  rw [hworkers, hproducers]
  omega

/-- A statement of a worker keeps the tokens. -/
theorem ThPool.workerStep_tokens {s s' : ThPool μ} {i : Nat} {w : WorkerAt} (h : s.Inv)
    (ht : s.Tokens) (hw : s.workers[i]? = some w) (hs : s.workerStep i w = some s') :
    s'.Tokens := by
  cases w with
  | waiting =>
    simp only [workerStep, Option.ite_none_right_eq_some, Option.some.injEq] at hs
    obtain ⟨hsem, rfl⟩ := hs
    have hbalance : s.queue.length + s.sem + 0 = s.queue.length + (s.sem - 1) + 1 := by omega
    exact ht.worker_move hw rfl rfl ⟨rfl, rfl⟩ hbalance
  | woken =>
    -- the test succeeds
    simp only [workerStep, if_pos (ht.queue_pos h hw rfl).2, Option.some.injEq] at hs
    subst hs
    exact ht.worker_move hw rfl rfl ⟨rfl, rfl⟩ rfl
  | entering =>
    simp only [workerStep, Option.ite_none_right_eq_some, Option.some.injEq] at hs
    obtain ⟨-, rfl⟩ := hs
    exact ht.worker_move hw rfl rfl ⟨rfl, rfl⟩ rfl
  | locked =>
    simp only [workerStep, ht.running, Bool.false_eq_true, if_false] at hs
    split at hs
    · -- the queue cannot be empty: this worker still has its token
      next hq =>
      have hpos := (ht.queue_pos h hw rfl).1
      rw [hq] at hpos
      exact absurd hpos (Nat.lt_irrefl 0)
    · next a rest hq =>
      obtain rfl := (Option.some.inj hs).symm
      have hbalance : rest.length + s.sem + 1 = s.queue.length + s.sem + 0 := by
        rw [hq, List.length_cons]
        omega
      exact ht.worker_move hw rfl rfl ⟨rfl, rfl⟩ hbalance
  | popped a =>
    simp only [workerStep, Option.some.injEq] at hs
    subst hs
    exact ht.worker_move hw rfl rfl ⟨rfl, rfl⟩ rfl
  | counted a =>
    simp only [workerStep, Option.some.injEq] at hs
    subst hs
    exact ht.worker_move hw rfl rfl ⟨rfl, rfl⟩ rfl
  | handling a =>
    simp only [workerStep, Option.some.injEq] at hs
    subst hs
    exact ht.worker_move hw rfl rfl ⟨rfl, rfl⟩ rfl
  | exited => simp [workerStep] at hs

/-- So does a statement of a producer. -/
theorem ThPool.producerStep_tokens {s s' : ThPool μ} {j : Nat} {p : ProducerAt μ} (ht : s.Tokens)
    (hp : s.producers[j]? = some p) (hs : s.producerStep j p = some s') : s'.Tokens := by
  cases p with
  | idle => simp [producerStep] at hs
  | calling m =>
    simp only [producerStep, Option.ite_none_right_eq_some, Option.some.injEq] at hs
    obtain ⟨-, rfl⟩ := hs
    exact ht.producer_move hp rfl rfl ⟨rfl, rfl⟩ rfl
  | locked m =>
    simp only [producerStep, Option.some.injEq] at hs
    subst hs
    have hbalance : (s.queue ++ [s.inserted.length]).length + s.sem + 0 =
        s.queue.length + s.sem + 1 := by
      rw [List.length_append, List.length_singleton]
      omega
    exact ht.producer_move hp rfl rfl ⟨rfl, rfl⟩ hbalance
  | pushed =>
    simp only [producerStep, Option.some.injEq] at hs
    subst hs
    exact ht.producer_move hp rfl rfl ⟨rfl, rfl⟩ rfl
  | counted =>
    simp only [producerStep, Option.some.injEq] at hs
    subst hs
    exact ht.producer_move hp rfl rfl ⟨rfl, rfl⟩ rfl
  | posting =>
    simp only [producerStep, Option.some.injEq] at hs
    subst hs
    have hbalance : s.queue.length + s.sem + 1 = s.queue.length + (s.sem + 1) + 0 := by omega
    exact ht.producer_move hp rfl rfl ⟨rfl, rfl⟩ hbalance

/-- Without interruptions and before the shutdown every step keeps the tokens. -/
theorem ThPool.step_tokens (s : ThPool μ) (act : PoolAct μ) (s' : ThPool μ)
    (h : s.Inv ∧ s.Tokens) (hok : act.Undisturbed) (hs : s.step act = some s') :
    s'.Inv ∧ s'.Tokens := by
  refine ⟨step_inv s act s' h.1 hs, ?_⟩
  obtain ⟨hinv, ht⟩ := h
  simp only [step, ht.defined, Bool.false_eq_true, if_false] at hs
  cases act with
  | worker i =>
    obtain ⟨w, hw, hs⟩ := Option.bind_eq_some_iff.mp hs
    exact workerStep_tokens hinv ht hw hs
  | producer j =>
    obtain ⟨p, hp, hs⟩ := Option.bind_eq_some_iff.mp hs
    exact producerStep_tokens ht hp hs
  | call j m =>
    obtain ⟨p, hp, hs⟩ := Option.bind_eq_some_iff.mp hs
    cases p with
    | idle =>
      obtain rfl := (Option.some.inj hs).symm
      exact ht.producer_move hp rfl rfl ⟨rfl, rfl⟩ rfl
    | calling _ => cases hs
    | locked _ => cases hs
    | pushed => cases hs
    | counted => cases hs
    | posting => cases hs
  | interrupt i => exact absurd hok id
  | shutdown => exact absurd hok id

theorem ThPool.start_tokens (n k : Nat) : (ThPool.start μ n k).Tokens := by
  refine ⟨?_, rfl, rfl⟩
  show 0 = 0 + (List.replicate n WorkerAt.waiting).countP _ +
    (List.replicate k ProducerAt.idle).countP _
  rw [List.countP_replicate, List.countP_replicate]
  rfl

/-- Nobody holds the mutex: the counter is the length of the queue. -/
theorem ThPool.Inv.size_eq {s : ThPool μ} (h : s.Inv) (hfree : s.mutex = none) :
    s.size = s.queue.length := by
  have hworkers : s.workers.countP WorkerAt.uncounted = 0 := by
    apply h.workers.countP_eq_zero (by simp [hfree])
    intro w hw
    cases w <;> simp_all [WorkerAt.uncounted, WorkerAt.inLock]
  have hproducers : s.producers.countP ProducerAt.uncounted = 0 := by
    apply h.producers.countP_eq_zero (by simp [hfree])
    intro p hp
    cases p <;> simp_all [ProducerAt.uncounted, ProducerAt.inLock]
  have hsize := h.size
  omega

/-- All workers are blocked: they wait, and the semaphore is at 0. -/
def ThPool.AllBlocked (s : ThPool μ) : Prop := s.sem = 0 ∧ ∀ w ∈ s.workers, w = .waiting

/-- **The pool delivers each message once.** For any numbers of workers and producers and any
interleaving without interrupted waits and before the shutdown: the counter is the length of the
queue whenever the mutex is free; a worker that took a token finds the counter positive and the
queue nonempty, up to its pop; buffers are popped in the order of their pushes, and each worker has
handled, or has in its hands, what it popped; and the queue is empty when all workers are blocked
and no producer is between its push and its post. -/
theorem th_pool_delivers_once (n k : Nat) (acts : List (PoolAct μ)) (s : ThPool μ)
    (hrun : run ThPool.step (ThPool.start μ n k) acts = some s)
    (hok : ∀ act ∈ acts, act.Undisturbed) :
    (s.mutex = none → s.size = s.queue.length) ∧
    (∀ (i : Nat) w, s.workers[i]? = some w → w.hasToken = true → 0 < s.size ∧ s.queue ≠ []) ∧
    s.undef = false ∧
    s.popped.map Prod.snd ++ s.queue = List.range s.inserted.length ∧
    (∀ i w, s.workers[i]? = some w →
      byWorker i s.popped = byWorker i s.handled ++ w.inHand.toList) ∧
    (s.AllBlocked → (∀ p ∈ s.producers, p.owesPost = false) → s.queue = []) := by
  have hmeets : Meets ThPool.step (fun _ act => act.Undisturbed) (ThPool.start μ n k) acts := by
    apply meets_of_prefixes
    intro pre act post heq _ _
    exact hok act (by rw [heq]; simp)
  obtain ⟨hinv, ht⟩ : s.Inv ∧ s.Tokens :=
    run_invariant ThPool.step_tokens acts _ s ⟨ThPool.start_inv n k, ThPool.start_tokens n k⟩
      hmeets hrun
  refine ⟨hinv.size_eq, fun i w hw htoken => ?_, ht.defined, hinv.order, hinv.hands, ?_⟩
  · obtain ⟨hq, hsize⟩ := ht.queue_pos hinv hw htoken
    exact ⟨hsize, List.length_pos_iff.mp hq⟩
  · intro hblocked hposted
    have hworkers : s.workers.countP WorkerAt.hasToken = 0 :=
      List.countP_eq_zero.mpr fun w hw => by rw [hblocked.2 w hw]; exact Bool.false_ne_true
    have hproducers : s.producers.countP ProducerAt.owesPost = 0 :=
      List.countP_eq_zero.mpr fun p hp => by rw [hposted p hp]; exact Bool.false_ne_true
    have hlen := ht.tokens
    rw [hblocked.1, hworkers, hproducers] at hlen
    exact List.length_eq_zero_iff.mp hlen

/-- Two workers and two producers whose calls overlap: both messages are handled, in order. -/
theorem th_pool_delivers_once_overlap :
    ∃ s, run ThPool.step (ThPool.start Nat 2 2)
        [.call 0 7, .call 1 9, .producer 0, .producer 0, .producer 0, .producer 0, .producer 1,
          .producer 1, .producer 1, .producer 0, .worker 1, .producer 1, .producer 1, .worker 0,
          .worker 1, .worker 1, .worker 0, .worker 1, .worker 1, .worker 1, .worker 0, .worker 0,
          .worker 0, .worker 0, .worker 0, .worker 1] = some s ∧
      s.inserted = [7, 9] ∧ s.handled = [(0, 1), (1, 0)] ∧
      s.popped.map Prod.snd ++ s.queue = List.range s.inserted.length := by
  obtain ⟨s, hrun, hinserted, hhandled⟩ : ∃ s, run ThPool.step (ThPool.start Nat 2 2)
        [.call 0 7, .call 1 9, .producer 0, .producer 0, .producer 0, .producer 0, .producer 1,
          .producer 1, .producer 1, .producer 0, .worker 1, .producer 1, .producer 1, .worker 0,
          .worker 1, .worker 1, .worker 0, .worker 1, .worker 1, .worker 1, .worker 0, .worker 0,
          .worker 0, .worker 0, .worker 0, .worker 1] = some s ∧
      s.inserted = [7, 9] ∧ s.handled = [(0, 1), (1, 0)] := ⟨_, rfl, rfl, rfl⟩
  exact ⟨s, hrun, hinserted, hhandled,
    (th_pool_delivers_once 2 2 _ s hrun (by decide)).2.2.2.1⟩

end Mgx
