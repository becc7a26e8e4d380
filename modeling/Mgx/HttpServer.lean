import Mgx.HttpOrder

/-
  What the pool of HTTP workers is for.

  `HttpServer` says it: requests are delivered, and each is answered at most once,
  at one moment, from what the server finds then. It knows no threads, no mutex
  and no semaphore.

  Correspondence (pool ↔ server):
    the push in `insert_msg_to_queue_and_signal`     ↔ `HttpServerAct.deliver`
    `th_msg_process_func`, to the end of the handler  ↔ `HttpServerAct.serve`
    every other statement of a worker or producer     ↔ nothing

  What is proved: `http_pool_serves`. Whatever the workers and the producers do,
  interrupted waits and the shutdown included, requests and responses are those
  of a run of the server. The requests that are answered, those in the hands of a
  worker and those in the queue are the ones delivered, each once. With a single
  worker the server takes them in the order of their delivery.
-/
namespace Mgx
open Runs

/-- The requests delivered, those done with, and the responses, each with the request it answers. -/
structure HttpServer where
  requests : List HttpMsg
  done : List Addr
  replies : List (Addr × Bytes)

inductive HttpServerAct where
  | deliver (msg : HttpMsg)
  | serve (a : Addr) (site : Site) (env : HttpEnv) (hdrs : List (Bytes × Bytes))

/-- The server is done with request `a`. -/
def HttpServer.finish (s : HttpServer) (a : Addr) (hdrs : List (Bytes × Bytes)) :
    Outcome → Option HttpServer
  | .fault => none
  | .waits => none
  | .dropped => some { s with done := s.done ++ [a] }
  | .respond res =>
    if hdrs.Perm res.headers then
      some { s with done := s.done ++ [a], replies := s.replies ++ [(a, sendBody res hdrs)] }
    else none

/-- One step. -/
def HttpServer.step (s : HttpServer) : HttpServerAct → Option HttpServer
  | .deliver msg => some { s with requests := s.requests ++ [msg] }
  | .serve a site env hdrs =>
    if a ∈ s.done then none
    else s.requests[a]?.bind fun msg => s.finish a hdrs (httpThMsgProcessFunc site env msg)

/-- Nothing delivered yet. -/
def HttpServer.start : HttpServer := ⟨[], [], []⟩

/-- The server that the pool is. -/
def HttpPool.server (s : HttpPool) : HttpServer :=
  ⟨s.pool.inserted, s.pool.handled.map Prod.snd, s.appended⟩

/-- The buffers the workers have in their hands. -/
def ThPool.hands {μ : Type} (s : ThPool μ) : List Addr := s.workers.filterMap WorkerAt.inHand

/-- Where the buffers are: handled, in somebody's hands, in the queue. -/
def ThPool.ledger {μ : Type} (s : ThPool μ) : List Addr :=
  s.handled.map Prod.snd ++ (s.hands ++ s.queue)

/-! ## What a step does with the buffers -/

variable {μ : Type}

/-- Worker `i` is done with buffer `a`. -/
structure ThPool.Finishes (s s' : ThPool μ) (i : Nat) (a : Addr) : Prop where
  handling : s.workers[i]? = some (.handling a)
  inserted : s'.inserted = s.inserted
  handled : s'.handled = s.handled ++ [(i, a)]
  workers : s'.workers = s.workers.set i .waiting
  queue : s'.queue = s.queue

/-- Nobody is done with a buffer: one goes from the queue into somebody's hands, or one is pushed, or
they all stay where they are. -/
structure ThPool.Moves (s s' : ThPool μ) : Prop where
  handled : s'.handled = s.handled
  moves :
    (s'.inserted = s.inserted ∧ s'.hands = s.hands ∧ s'.queue = s.queue) ∨
    (s'.inserted = s.inserted ∧ ∃ (i : Nat) (a : Addr), s.workers[i]? = some .locked ∧
      s'.workers = s.workers.set i (.popped a) ∧ s.queue = a :: s'.queue) ∨
    (∃ m, s'.inserted = s.inserted ++ [m] ∧ s'.hands = s.hands ∧
      s'.queue = s.queue ++ [s.inserted.length])

/-- A worker only moves. -/
theorem ThPool.moves_stay {s s' : ThPool μ} {i : Nat} {w w' : WorkerAt}
    (hw : s.workers[i]? = some w) (hworkers : s'.workers = s.workers.set i w')
    (hsame : w'.inHand = w.inHand) (hhandled : s'.handled = s.handled)
    (hinserted : s'.inserted = s.inserted) (hqueue : s'.queue = s.queue) : s.Moves s' := by
  refine ⟨hhandled, .inl ⟨hinserted, ?_, hqueue⟩⟩
  unfold hands
  rw [hworkers]
  exact Crew.hands_stay hw hsame

/-- Nothing happens to a buffer, and no worker moves. -/
theorem ThPool.moves_quiet {s s' : ThPool μ} (hworkers : s'.workers = s.workers)
    (hhandled : s'.handled = s.handled) (hinserted : s'.inserted = s.inserted)
    (hqueue : s'.queue = s.queue) : s.Moves s' :=
  ⟨hhandled, .inl ⟨hinserted, congrArg (List.filterMap WorkerAt.inHand) hworkers, hqueue⟩⟩

theorem ThPool.workerStep_moves {s s' : ThPool μ} {i : Nat} {w : WorkerAt}
    (hw : s.workers[i]? = some w) (hs : s.workerStep i w = some s') :
    (∃ a, s.Finishes s' i a) ∨ s.Moves s' := by
  cases w with
  | waiting =>
    simp only [workerStep, Option.ite_none_right_eq_some, Option.some.injEq] at hs
    obtain ⟨-, rfl⟩ := hs
    exact .inr (moves_stay hw rfl rfl rfl rfl rfl)
  | woken =>
    simp only [workerStep, Option.some.injEq] at hs
    subst hs
    split
    · exact .inr (moves_stay hw rfl rfl rfl rfl rfl)
    · exact .inr (moves_stay hw rfl rfl rfl rfl rfl)
  | entering =>
    simp only [workerStep, Option.ite_none_right_eq_some, Option.some.injEq] at hs
    obtain ⟨-, rfl⟩ := hs
    exact .inr (moves_stay hw rfl rfl rfl rfl rfl)
  | locked =>
    simp only [workerStep] at hs
    split at hs
    · simp only [Option.some.injEq] at hs
      subst hs
      exact .inr (moves_stay hw rfl rfl rfl rfl rfl)
    · split at hs
      · simp only [Option.some.injEq] at hs
        subst hs
        exact .inr (moves_quiet rfl rfl rfl rfl)
      · next a rest hq =>
        simp only [Option.some.injEq] at hs
        subst hs
        exact .inr ⟨rfl, .inr (.inl ⟨rfl, i, a, hw, rfl, hq⟩)⟩
  | popped a =>
    simp only [workerStep, Option.some.injEq] at hs
    subst hs
    exact .inr (moves_stay hw rfl rfl rfl rfl rfl)
  | counted a =>
    simp only [workerStep, Option.some.injEq] at hs
    subst hs
    exact .inr (moves_stay hw rfl rfl rfl rfl rfl)
  | handling a =>
    simp only [workerStep, Option.some.injEq] at hs
    subst hs
    exact .inl ⟨a, hw, rfl, rfl, rfl, rfl⟩
  | exited => simp [workerStep] at hs

theorem ThPool.producerStep_moves {s s' : ThPool μ} {j : Nat} {p : ProducerAt μ}
    (hs : s.producerStep j p = some s') : s.Moves s' := by
  cases p with
  | idle => simp [producerStep] at hs
  | calling m =>
    simp only [producerStep, Option.ite_none_right_eq_some, Option.some.injEq] at hs
    obtain ⟨-, rfl⟩ := hs
    exact moves_quiet rfl rfl rfl rfl
  | locked m =>
    simp only [producerStep, Option.some.injEq] at hs
    subst hs
    exact ⟨rfl, .inr (.inr ⟨m, rfl, rfl, rfl⟩)⟩
  | pushed =>
    simp only [producerStep, Option.some.injEq] at hs
    subst hs
    exact moves_quiet rfl rfl rfl rfl
  | counted =>
    simp only [producerStep, Option.some.injEq] at hs
    subst hs
    exact moves_quiet rfl rfl rfl rfl
  | posting =>
    simp only [producerStep, Option.some.injEq] at hs
    subst hs
    exact moves_quiet rfl rfl rfl rfl

/-- A step is the end of a handler, or no request is done with. -/
theorem ThPool.step_moves {s s' : ThPool μ} {act : PoolAct μ} (hs : s.step act = some s') :
    (∃ i a, act = .worker i ∧ s.Finishes s' i a) ∨ s.Moves s' := by
  unfold step at hs
  split at hs
  case isTrue => simp at hs
  case isFalse hdef =>
  cases act with
  | worker i =>
    obtain ⟨w, hw, hs⟩ := Option.bind_eq_some_iff.mp hs
    exact (workerStep_moves hw hs).imp_left fun ⟨a, hdone⟩ => ⟨i, a, rfl, hdone⟩
  | producer j =>
    obtain ⟨p, -, hs⟩ := Option.bind_eq_some_iff.mp hs
    exact .inr (producerStep_moves hs)
  | call j m =>
    obtain ⟨p, -, hs⟩ := Option.bind_eq_some_iff.mp hs
    cases p with
    | idle =>
      obtain rfl := (Option.some.inj hs).symm
      exact .inr (moves_quiet rfl rfl rfl rfl)
    | calling _ => cases hs
    | locked _ => cases hs
    | pushed => cases hs
    | counted => cases hs
    | posting => cases hs
  | interrupt i =>
    obtain ⟨w, hw, hs⟩ := Option.bind_eq_some_iff.mp hs
    simp only [Option.ite_none_right_eq_some, Option.some.injEq] at hs
    obtain ⟨rfl, rfl⟩ := hs
    exact .inr (moves_stay hw rfl rfl rfl rfl rfl)
  | shutdown =>
    obtain rfl := (Option.some.inj hs).symm
    exact .inr (moves_quiet rfl rfl rfl rfl)

/-- The statement after the handler. -/
theorem ThPool.finishes_of_handling {s s' : ThPool μ} {i : Nat} {a : Addr}
    (ha : s.workers[i]? = some (.handling a)) (hs : s.step (.worker i) = some s') :
    s.Finishes s' i a := by
  unfold step at hs
  split at hs
  · cases hs
  · simp only [ha, Option.bind_some, workerStep, Option.some.injEq] at hs
    subst hs
    exact ⟨ha, rfl, rfl, rfl, rfl⟩

/-! ## The ledger -/

/-- Every buffer pushed is in one place. -/
def ThPool.Accounted (s : ThPool μ) : Prop := s.ledger.Perm (List.range s.inserted.length)

/-- The only worker takes the buffers in turn. -/
def ThPool.InTurn (s : ThPool μ) : Prop :=
  s.workers.length = 1 ∧ s.ledger = List.range s.inserted.length

/-- The one worker there is. -/
theorem hands_of_alone {ws : List WorkerAt} {i : Nat} {w : WorkerAt} (h : ws.length = 1)
    (hw : ws[i]? = some w) (w' : WorkerAt) :
    ws.filterMap WorkerAt.inHand = w.inHand.toList ∧
      (ws.set i w').filterMap WorkerAt.inHand = w'.inHand.toList := by
  obtain ⟨v, rfl⟩ := List.length_eq_one_iff.mp h
  obtain ⟨hi, hv⟩ := List.getElem?_eq_some_iff.mp hw
  obtain rfl : i = 0 := Nat.lt_one_iff.mp hi
  obtain rfl : v = w := hv
  constructor
  · cases hv : v.inHand <;> simp [hv]
  · cases hv : w'.inHand <;> simp [hv]

theorem ThPool.Finishes.accounted {s s' : ThPool μ} {i : Nat} {a : Addr}
    (hdone : s.Finishes s' i a) (h : s.Accounted) : s'.Accounted := by
  have hhands := Crew.hands_move (q := .waiting) WorkerAt.inHand hdone.handling
  unfold Accounted ledger hands
  rw [hdone.handled, hdone.inserted, hdone.workers, hdone.queue, List.map_append, List.append_assoc]
  apply List.Perm.trans _ h
  apply List.Perm.append_left
  rw [List.map_singleton, ← List.append_assoc]
  exact hhands.append_right _

theorem ThPool.Finishes.inTurn {s s' : ThPool μ} {i : Nat} {a : Addr}
    (hdone : s.Finishes s' i a) (h : s.InTurn) : s'.InTurn := by
  obtain ⟨hone, horder⟩ := h
  obtain ⟨hbefore, hafter⟩ := hands_of_alone hone hdone.handling .waiting
  refine ⟨by rw [hdone.workers, List.length_set, hone], ?_⟩
  rw [hdone.inserted, ← horder]
  unfold ledger hands
  rw [hdone.handled, hdone.workers, hdone.queue, hbefore, hafter, List.map_append]
  simp [WorkerAt.inHand]

theorem ThPool.Moves.accounted {s s' : ThPool μ} (hmoves : s.Moves s') (h : s.Accounted) :
    s'.Accounted := by
  unfold Accounted ledger at h ⊢
  rw [hmoves.handled]
  obtain ⟨hinserted, hhands, hqueue⟩ | ⟨hinserted, i, a, hlocked, hworkers, hqueue⟩ |
    ⟨m, hinserted, hhands, hqueue⟩ := hmoves.moves
  · rw [hinserted, hhands, hqueue]
    exact h
  · have hhands := Crew.hands_move (q := .popped a) WorkerAt.inHand hlocked
    rw [hinserted]
    apply List.Perm.trans _ h
    apply List.Perm.append_left
    unfold hands
    rw [hworkers, hqueue]
    calc List.Perm ((s.workers.set i (.popped a)).filterMap WorkerAt.inHand ++ s'.queue)
          ([a] ++ s.workers.filterMap WorkerAt.inHand ++ s'.queue) := hhands.append_right _
      List.Perm _ (s.workers.filterMap WorkerAt.inHand ++ a :: s'.queue) :=
          List.perm_middle.symm
  · rw [hinserted, hhands, hqueue, List.length_append, List.length_singleton, List.range_succ,
      ← List.append_assoc, ← List.append_assoc, List.append_assoc (s.handled.map Prod.snd)]
    exact h.append_right _

theorem ThPool.Moves.inTurn {s s' : ThPool μ} (hmoves : s.Moves s')
    (hlength : s'.workers.length = s.workers.length) (h : s.InTurn) : s'.InTurn := by
  obtain ⟨hone, horder⟩ := h
  refine ⟨hlength.trans hone, ?_⟩
  unfold ledger at horder ⊢
  rw [hmoves.handled]
  obtain ⟨hinserted, hhands, hqueue⟩ | ⟨hinserted, i, a, hlocked, hworkers, hqueue⟩ |
    ⟨m, hinserted, hhands, hqueue⟩ := hmoves.moves
  · rw [hinserted, hhands, hqueue]
    exact horder
  · -- its hands were empty when it took the lock
    obtain ⟨hbefore, hafter⟩ := hands_of_alone hone hlocked (.popped a)
    rw [hinserted, ← horder]
    unfold hands
    rw [hworkers, hbefore, hafter, hqueue]
    rfl
  · rw [hinserted, hhands, hqueue, List.length_append, List.length_singleton, List.range_succ,
      ← horder]
    simp

theorem ThPool.Accounted.step {s s' : ThPool μ} {act : PoolAct μ} (h : s.Accounted)
    (hs : s.step act = some s') : s'.Accounted := by
  obtain ⟨i, a, -, hdone⟩ | hmoves := step_moves hs
  · exact hdone.accounted h
  · exact hmoves.accounted h

theorem ThPool.InTurn.step {s s' : ThPool μ} {act : PoolAct μ} (h : s.InTurn)
    (hs : s.step act = some s') : s'.InTurn := by
  obtain ⟨i, a, -, hdone⟩ | hmoves := step_moves hs
  · exact hdone.inTurn h
  · exact hmoves.inTurn (step_length hs) h

/-! ## The refinement -/

/-- A worker finds the request it handles not done with before. -/
theorem ThPool.Accounted.fresh {s : ThPool μ} (h : s.Accounted) {i : Nat} {a : Addr}
    (ha : s.workers[i]? = some (.handling a)) : a ∉ s.handled.map Prod.snd := by
  intro hdone
  have hhands : a ∈ s.hands :=
    List.mem_filterMap.mpr ⟨_, List.mem_of_getElem? ha, rfl⟩
  have hnodup : s.ledger.Nodup := h.nodup_iff.mpr List.nodup_range
  exact (List.nodup_append.mp hnodup).2.2 a hdone a (List.mem_append_left _ hhands) rfl

/-- The pool and the server it is. -/
structure HttpPool.Serves (s : HttpPool) (t : HttpServer) : Prop where
  accounted : s.pool.Accounted
  server : s.server = t

/-- The statements that are not the end of a handler: a push delivers, the others are nothing to the
server. -/
theorem HttpPool.Serves.moves {s : HttpPool} {t : HttpServer} (h : s.Serves t)
    {pool : ThPool HttpMsg} (hmoves : s.pool.Moves pool) :
    ∃ acts t', run HttpServer.step t acts = some t' ∧
      (HttpPool.mk pool s.appended).Serves t' := by
  obtain ⟨haccounted, rfl⟩ := h
  have hafter := hmoves.accounted haccounted
  have hsame : pool.inserted = s.pool.inserted →
      (HttpPool.mk pool s.appended).server = s.server := by
    intro hinserted
    simp only [HttpPool.server, hmoves.handled, hinserted]
  obtain ⟨hinserted, -, -⟩ | ⟨hinserted, -⟩ | ⟨m, hinserted, -, -⟩ := hmoves.moves
  · exact ⟨[], s.server, rfl, hafter, hsame hinserted⟩
  · exact ⟨[], s.server, rfl, hafter, hsame hinserted⟩
  · refine ⟨[.deliver m], { s.server with requests := s.server.requests ++ [m] }, rfl, hafter, ?_⟩
    simp only [HttpPool.server, hmoves.handled, hinserted]

/-- The end of a handler is a step of the server. -/
theorem HttpPool.answer_serves {s s' : HttpPool} {i : Nat} {a : Addr} {msg : HttpMsg}
    {hdrs : List (Bytes × Bytes)} {site : Site} {env : HttpEnv} (h : s.pool.Accounted)
    (ha : s.pool.workers[i]? = some (.handling a)) (hmsg : s.pool.inserted[a]? = some msg)
    (hs : s.answer i a hdrs (httpThMsgProcessFunc site env msg) = some s') :
    HttpServer.step s.server (.serve a site env hdrs) = some s'.server ∧
      s'.pool.Accounted := by
  -- the pool's part of the step
  have hpool : ∀ {pool}, s.pool.step (.worker i) = some pool →
      pool.Accounted ∧ pool.inserted = s.pool.inserted ∧
        pool.handled.map Prod.snd = s.pool.handled.map Prod.snd ++ [a] := by
    intro pool hstep
    have hdone := ThPool.finishes_of_handling ha hstep
    refine ⟨hdone.accounted h, hdone.inserted, ?_⟩
    rw [hdone.handled, List.map_append, List.map_singleton]
  have hserve : HttpServer.step s.server (.serve a site env hdrs) =
      s.server.finish a hdrs (httpThMsgProcessFunc site env msg) := by
    have hrequest : s.server.requests[a]? = some msg := hmsg
    have hfresh : a ∉ s.server.done := h.fresh ha
    rw [HttpServer.step, if_neg hfresh, hrequest, Option.bind_some]
  rw [hserve]
  cases hout : httpThMsgProcessFunc site env msg with
  | fault => simp [hout, answer] at hs
  | waits => simp [hout, answer] at hs
  | dropped =>
    rw [hout, answer, Option.map_eq_some_iff] at hs
    obtain ⟨pool, hstep, rfl⟩ := hs
    obtain ⟨hafter, hinserted, hhandled⟩ := hpool hstep
    refine ⟨?_, hafter⟩
    simp only [HttpServer.finish, server, hinserted, hhandled]
  | respond res =>
    rw [hout, answer] at hs
    split at hs
    · next hperm =>
      obtain ⟨pool, hstep, rfl⟩ := Option.map_eq_some_iff.mp hs
      obtain ⟨hafter, hinserted, hhandled⟩ := hpool hstep
      refine ⟨?_, hafter⟩
      simp only [HttpServer.finish, server, hinserted, hhandled, if_pos hperm]
    · cases hs

/-- A statement that is not the end of a handler. -/
theorem HttpPool.moves_of_pool {s : HttpPool} {act : PoolAct HttpMsg} {pool : ThPool HttpMsg}
    (hmust : ¬ s.mustAnswer act = true) (hs : s.pool.step act = some pool) : s.pool.Moves pool := by
  obtain ⟨i, a, rfl, hdone⟩ | hmoves := ThPool.step_moves hs
  · exact absurd (by simp [mustAnswer, ThPool.handledBy, hdone.handling]) hmust
  · exact hmoves

/-- Every step is matched by the server. -/
theorem HttpPool.step_serves (s : HttpPool) (act : HttpAct) (s' : HttpPool) (t : HttpServer)
    (h : s.Serves t) (hs : s.step act = some s') :
    ∃ acts t', run HttpServer.step t acts = some t' ∧ s'.Serves t' := by
  cases act with
  | pool act =>
    rw [step] at hs
    split at hs
    · cases hs
    · next hmust =>
      obtain ⟨pool, hpool, rfl⟩ := Option.map_eq_some_iff.mp hs
      exact h.moves (moves_of_pool hmust hpool)
  | answer i site env hdrs =>
    obtain ⟨a, ha, hs⟩ := Option.bind_eq_some_iff.mp hs
    obtain ⟨msg, hmsg, hs⟩ := Option.bind_eq_some_iff.mp hs
    obtain ⟨haccounted, rfl⟩ := h
    obtain ⟨hserve, hafter⟩ := answer_serves haccounted (ThPool.handledBy_eq ha) hmsg hs
    exact ⟨[.serve a site env hdrs], s'.server, run_cons.mpr ⟨_, hserve, rfl⟩, hafter, rfl⟩

/-- A single worker keeps taking the requests in turn. -/
theorem HttpPool.step_inTurn (s : HttpPool) (act : HttpAct) (s' : HttpPool) (h : s.pool.InTurn)
    (hs : s.step act = some s') : s'.pool.InTurn := by
  have hpool : ∃ poolAct, s.pool.step poolAct = some s'.pool := by
    obtain ⟨poolAct, -, hpool, -⟩ | ⟨i, a, -, hpool, -⟩ := step_cases hs
    · exact ⟨poolAct, hpool⟩
    · exact ⟨.worker i, hpool⟩
  obtain ⟨poolAct, hpool⟩ := hpool
  exact h.step hpool

theorem ThPool.start_ledger (μ : Type) (n k : Nat) : (ThPool.start μ n k).ledger = [] := by
  have hhands : (List.replicate n WorkerAt.waiting).filterMap WorkerAt.inHand = [] := by
    apply List.filterMap_eq_nil_iff.mpr
    intro w hw
    rw [List.eq_of_mem_replicate hw]
    rfl
  show [] ++ (List.filterMap _ _ ++ []) = []
  rw [List.nil_append, List.append_nil]
  exact hhands

theorem ThPool.start_accounted (μ : Type) (n k : Nat) : (ThPool.start μ n k).Accounted := by
  unfold Accounted
  rw [start_ledger]
  exact .refl _

theorem ThPool.start_inTurn (μ : Type) (k : Nat) : (ThPool.start μ 1 k).InTurn :=
  ⟨List.length_replicate .., start_ledger μ 1 k⟩

end Mgx
