import Mgx.ConnPool

/-
  Events, evictions and the recycler, interleaved.

  The epoll thread works through a batch of events, the heartbeat thread evicts
  clients that have not sent a heartbeat, and the recycler frees connections. The
  release of a connection is taken apart: a thread decides, then closes
  `c->fd`, then takes the lock and puts the connection into the recycle set or the
  free queue; steps of the other threads may come in between.

  Correspondence (C++ ↔ Lean):
    `epoll_wait`                                     ↔ `EvAct.epollWait`
    the stale test, `r_handler(c)`, `w_handler(c)`   ↔ `EvAct.check`, `.callRead`, `.callWrite`
      (`epoll_process_events`, net/mgx_socket.cpp)
    the `recv`s of a read handler, `recv_process`    ↔ `EvAct.recv`, `.readDone`
    `event_accept`                                   ↔ `EvAct.accept`, `.acceptFails`
    `epoll_oper_event(.., MOD, EPOLLOUT, ..)`        ↔ `EvAct.arm`
    `close(c->fd)`, then the locked part             ↔ `EvSys.closeStep`, `EvSys.finishStep`
    `add_to_timer_queue`, `delete_from_timer_queue`  ↔ `emplace`, `deleteFromTimerQueue`
    `get_over_time_timer`, called until null         ↔ `overTime`
    `monitor_timer_th_func`                          ↔ `EvAct.expire`, `.hbTest`, `.hbRelease`
    `last_ping_time = time(nullptr)` on a PING       ↔ `EvAct.ping`
    `recy_conn_th_func`                              ↔ `EvAct.recycle`

  An occupancy of a connection is numbered by how often the connection has been
  handed out (`EvSys.occ`). `epoll_oper_event` goes by the number `c->fd`; `EvAct.arm`
  is a step only while that number is the open descriptor of `c` itself. The
  listening sockets' events are the `accept`s that may come between two events of a
  batch. Under `USE_HTTP` there is no heartbeat
  thread, and one read handler makes several `recv`s.

  What is proved: `close_once`. While a thread decides to release a connection
  only when its descriptor is open and the other thread is not releasing it, every
  descriptor is closed once and by its owner, and every occupancy is freed once.
-/
namespace Mgx
open Runs

/-- A descriptor that `accept` returned and that is open: what it is registered with, the occupancy
it is for, and whether `EPOLLOUT` is armed. -/
structure Desc where
  fd : Int
  conn : ConnId
  inst : Bool
  occ : Nat
  out : Bool
  deriving DecidableEq, Repr

/-- An event `epoll_wait` returned: the `data.ptr` of its registration, the occupancy it was
registered for, and its flags. -/
structure Event where
  conn : ConnId
  inst : Bool
  occ : Nat
  epollin : Bool
  epollout : Bool
  deriving DecidableEq, Repr

/-- A thread is inside `insert_recy_conn_queue` or `close_conn`, before or after its `close`. -/
structure Rel where
  conn : ConnId
  kind : Release
  closed : Bool
  deriving DecidableEq, Repr

/-- Where the epoll thread is: between two events; past the stale test of an event, with the handlers
it has still to call; in the read handler; in the release its read handler makes. -/
inductive Phase where
  | fetch
  | handle (e : Event) (readDue writeDue : Bool)
  | reading (e : Event) (writeDue : Bool)
  | releasing (e : Event) (writeDue : Bool) (r : Rel)
  deriving DecidableEq, Repr

/-- A call of `close(c->fd)`: by which connection, in which occupancy, and who owned the number. -/
structure CloseCall where
  conn : ConnId
  occ : Nat
  owner : Option (ConnId × Nat)
  deriving DecidableEq, Repr

/-- A call of a handler for an event: the connection, the occupancy the event was registered for, and
the occupancy whose descriptor is open. -/
structure Dispatch where
  conn : ConnId
  evOcc : Nat
  nowOcc : Option Nat
  deriving DecidableEq, Repr

/-- The state of the three threads. `occ`, `closes`, `frees` and `dispatched` are histories. -/
structure EvSys where
  pool : Pool
  fds : List Desc
  timerQueue : List (Int × MsgHdr)
  heartWaitTime : Int
  batch : List Event
  phase : Phase
  que : List MsgHdr
  hb : Option Rel
  occ : ConnId → Nat
  closes : List CloseCall
  frees : List (ConnId × Nat)
  dispatched : List Dispatch

/-! ## The timer queue -/

/-- `m_timer_queue.emplace(t, h)`: after the entries that are not later. -/
def emplace (q : List (Int × MsgHdr)) (t : Int) (h : MsgHdr) : List (Int × MsgHdr) :=
  q.takeWhile (·.1 ≤ t) ++ (t, h) :: q.dropWhile (·.1 ≤ t)

/-- `delete_from_timer_queue`: the first entry of the connection. -/
def deleteFromTimerQueue (q : List (Int × MsgHdr)) (c : ConnId) : List (Int × MsgHdr) :=
  q.eraseP (·.2.pconn == c)

/-- `get_over_time_timer(now)` until it returns null: the entries that are due, each of them put back
at `now + wait`. The configuration makes `wait` at least 5. -/
def overTime (q : List (Int × MsgHdr)) (now wait : Int) : List MsgHdr × List (Int × MsgHdr) :=
  let due := (q.takeWhile (·.1 ≤ now)).map Prod.snd
  (due, due.foldl (fun q h => emplace q (now + wait) h) (q.dropWhile (·.1 ≤ now)))

/-! ## The steps -/

/-- The connections that own an open descriptor. -/
def EvSys.owners (s : EvSys) : List ConnId := s.fds.map Desc.conn

/-- The occupancy of the connection whose descriptor is open. -/
def EvSys.openOcc (s : EvSys) (c : ConnId) : Option Nat :=
  (s.fds.find? (fun d => d.conn == c && d.occ == s.occ c)).map Desc.occ

/-- `event_accept`: the connection is handed out, registered, and put in the timer queue. -/
def EvSys.accept (s : EvSys) (fd now : Int) : Option (ConnId × EvSys) :=
  if 0 ≤ fd ∧ fd ∉ s.fds.map Desc.fd then
    (s.pool.getConn fd now).map fun (c, p) =>
      (c, { s with
        pool := p
        occ := Function.update s.occ c (s.occ c + 1)
        fds := ⟨fd, c, (p.conn c).instanceBit, s.occ c + 1, false⟩ :: s.fds
        timerQueue := emplace s.timerQueue (now + s.heartWaitTime) ⟨c, (p.conn c).curSeq⟩ })
  else none

/-- `close(c->fd)`, which `insert_recy_conn_queue` precedes with `delete_from_timer_queue(c)`. -/
def EvSys.closeStep (s : EvSys) (r : Rel) : EvSys :=
  let fd := (s.pool.conn r.conn).fd
  { s with
    timerQueue := if r.kind = .delayed then deleteFromTimerQueue s.timerQueue r.conn
      else s.timerQueue
    fds := KeyTable.remove Desc.fd fd s.fds
    closes := s.closes ++ [⟨r.conn, s.occ r.conn,
      (s.fds.find? (fun d => d.fd == fd)).map (fun d => (d.conn, d.occ))⟩] }

/-- The locked part of `insert_recy_conn_queue`, or `free_conn`. -/
def EvSys.finishStep (s : EvSys) (r : Rel) (now : Int) : EvSys :=
  match r.kind with
  | .delayed => { s with pool := s.pool.insertRecy r.conn now }
  | .immediate =>
    { s with pool := s.pool.freeConn r.conn, frees := s.frees ++ [(r.conn, s.occ r.conn)] }

/-- A handler is called for the event. -/
def EvSys.dispatch (s : EvSys) (e : Event) : EvSys :=
  { s with dispatched := s.dispatched ++ [⟨e.conn, e.occ, s.openOcc e.conn⟩] }

/-- The two tests of `monitor_timer_th_func`: `cur_seq`, and the time of the last heartbeat. -/
def EvSys.evicts (s : EvSys) (h : MsgHdr) (now : Int) : Bool :=
  seqEq h.curSeq (s.pool.conn h.pconn).curSeq &&
    decide (now - (s.pool.conn h.pconn).lastPingTime > s.heartWaitTime * 3)

/-- What can happen. -/
inductive EvAct where
  | accept (fd now : Int)
  | acceptFails (fd now : Int)
  | arm (c : ConnId) (out : Bool)
  | ping (c : ConnId) (now : Int)
  | epollWait (evs : List Event)
  | check
  | callRead
  | recv (ret : RecvRet)
  | readDone
  | callWrite
  | next
  | release (now : Int)
  | expire (now : Int)
  | hbTest (now : Int)
  | hbRelease (now : Int)
  | recycle (c : ConnId) (now : Int)
  deriving DecidableEq, Repr

/-- One step; `none` when it cannot happen. -/
def EvSys.step (s : EvSys) : EvAct → Option EvSys
  | .accept fd now =>
    if s.phase = .fetch then (s.accept fd now).map Prod.snd else none
  | .acceptFails fd now =>
    -- not yet registered: no timer, and nothing of it is left in the table
    if s.phase = .fetch then (s.accept fd now).map fun (c, s') =>
      { (s'.closeStep ⟨c, .immediate, false⟩).finishStep ⟨c, .immediate, true⟩ now with
        timerQueue := s.timerQueue }
    else none
  | .arm c out =>
    if c ∈ s.owners then some
      { s with fds := s.fds.map (fun d => if d.conn = c then { d with out := out } else d) }
    else none
  | .ping c now =>
    some { s with pool := s.pool.setConn c { s.pool.conn c with lastPingTime := now } }
  | .epollWait evs =>
    if s.phase = .fetch ∧ s.batch = [] ∧ (evs.map Event.conn).Nodup ∧ (∀ e ∈ evs, ∃ d ∈ s.fds,
        d.conn = e.conn ∧ d.inst = e.inst ∧ d.occ = e.occ ∧ (e.epollout → d.out)) then
      some { s with batch := evs }
    else none
  | .check =>
    match s.phase, s.batch with
    | .fetch, e :: rest =>
      if s.pool.staleEvent e.conn e.inst then some { s with batch := rest }
      else some { s with batch := rest, phase := .handle e e.epollin e.epollout }
    | _, _ => none
  | .callRead =>
    match s.phase with
    | .handle e true w => some { s.dispatch e with phase := .reading e w }
    | _ => none
  | .recv ret =>
    match s.phase with
    | .reading e w =>
      -- a number that is not open is `EBADF`
      if (s.pool.conn e.conn).fd ∈ s.fds.map Desc.fd ∨ ret = .fail .other then
        match (recvProcess ret).2 with
        | none => some s
        | some kind => some { s with phase := .releasing e w ⟨e.conn, kind, false⟩ }
      else none
    | _ => none
  | .readDone =>
    match s.phase with
    | .reading e w => some { s with phase := .handle e false w }
    | _ => none
  | .callWrite =>
    match s.phase with
    | .handle e false true => some { s.dispatch e with phase := .handle e false false }
    | _ => none
  | .next =>
    match s.phase with
    | .handle _ false false => some { s with phase := .fetch }
    | _ => none
  | .release now =>
    match s.phase with
    | .releasing e w r =>
      if r.closed then some { s.finishStep r now with phase := .handle e false w }
      else some { s.closeStep r with phase := .releasing e w { r with closed := true } }
    | _ => none
  | .expire now =>
    if s.que = [] ∧ s.hb = none ∧ (∃ x ∈ s.timerQueue.head?, now > x.1) then
      some { s with
        que := (overTime s.timerQueue now s.heartWaitTime).1
        timerQueue := (overTime s.timerQueue now s.heartWaitTime).2 }
    else none
  | .hbTest now =>
    match s.hb, s.que with
    | none, h :: rest =>
      if s.evicts h now then some { s with que := rest, hb := some ⟨h.pconn, .delayed, false⟩ }
      else some { s with que := rest }
    | _, _ => none
  | .hbRelease now =>
    match s.hb with
    | some r =>
      if r.closed then some { s.finishStep r now with hb := none }
      else some { s.closeStep r with hb := some { r with closed := true } }
    | none => none
  | .recycle c now =>
    if c ∈ s.pool.recySet ∧ s.pool.recyDue c now then
      some { s with pool := s.pool.recyConn c, frees := s.frees ++ [(c, s.occ c)] }
    else none

def EvSys.start (wait heartWait : Int) (nows : List Int) : EvSys where
  pool := connPoolInit wait nows
  fds := []
  timerQueue := []
  heartWaitTime := heartWait
  batch := []
  phase := .fetch
  que := []
  hb := none
  occ := fun _ => 0
  closes := []
  frees := []
  dispatched := []

/-! ## What a step of a thread can do -/

section
variable {s s' : EvSys} {now : Int}

/-- The stale test drops the event or leaves its handlers to be called. -/
theorem EvSys.step_check (h : s.step .check = some s') : ∃ e rest, s.phase = .fetch ∧
    s.batch = e :: rest ∧
    ((s.pool.staleEvent e.conn e.inst = true ∧ s' = { s with batch := rest }) ∨
     (s.pool.staleEvent e.conn e.inst = false ∧
      s' = { s with batch := rest, phase := .handle e e.epollin e.epollout })) := by
  simp only [EvSys.step] at h
  split at h
  case h_2 => cases h
  case h_1 e rest hphase hbatch =>
  refine ⟨e, rest, hphase, hbatch, ?_⟩
  split at h
  · next hstale => exact .inl ⟨hstale, (Option.some.inj h).symm⟩
  · next hstale => exact .inr ⟨Bool.eq_false_iff.mpr hstale, (Option.some.inj h).symm⟩

theorem EvSys.step_callRead (h : s.step .callRead = some s') :
    ∃ e w, s.phase = .handle e true w ∧ s' = { s.dispatch e with phase := .reading e w } := by
  simp only [EvSys.step] at h
  split at h
  case h_2 => cases h
  case h_1 e w hphase => exact ⟨e, w, hphase, (Option.some.inj h).symm⟩

/-- A `recv` changes nothing, or the thread decides to release the connection. -/
theorem EvSys.step_recv {ret : RecvRet} (h : s.step (.recv ret) = some s') :
    ∃ e w, s.phase = .reading e w ∧
    (s' = s ∨ ∃ kind, (recvProcess ret).2 = some kind ∧
      s' = { s with phase := .releasing e w ⟨e.conn, kind, false⟩ }) := by
  simp only [EvSys.step] at h
  split at h
  case h_2 => cases h
  case h_1 e w hphase =>
  refine ⟨e, w, hphase, ?_⟩
  obtain ⟨-, h⟩ := Option.ite_none_right_eq_some.mp h
  cases hrel : (recvProcess ret).2 with
  | none =>
    rw [hrel] at h
    exact .inl (Option.some.inj h).symm
  | some kind =>
    rw [hrel] at h
    exact .inr ⟨kind, rfl, (Option.some.inj h).symm⟩

theorem EvSys.step_readDone (h : s.step .readDone = some s') :
    ∃ e w, s.phase = .reading e w ∧ s' = { s with phase := .handle e false w } := by
  simp only [EvSys.step] at h
  split at h
  case h_2 => cases h
  case h_1 e w hphase => exact ⟨e, w, hphase, (Option.some.inj h).symm⟩

theorem EvSys.step_callWrite (h : s.step .callWrite = some s') :
    ∃ e, s.phase = .handle e false true ∧
      s' = { s.dispatch e with phase := .handle e false false } := by
  simp only [EvSys.step] at h
  split at h
  case h_2 => cases h
  case h_1 e hphase => exact ⟨e, hphase, (Option.some.inj h).symm⟩

theorem EvSys.step_next (h : s.step .next = some s') :
    ∃ e, s.phase = .handle e false false ∧ s' = { s with phase := .fetch } := by
  simp only [EvSys.step] at h
  split at h
  case h_2 => cases h
  case h_1 e hphase => exact ⟨e, hphase, (Option.some.inj h).symm⟩

/-- The epoll thread carries its release on: the `close`, then the locked part. -/
theorem EvSys.step_release (h : s.step (.release now) = some s') :
    ∃ e w r, s.phase = .releasing e w r ∧
    ((r.closed = true ∧ s' = { s.finishStep r now with phase := .handle e false w }) ∨
     (r.closed = false ∧
      s' = { s.closeStep r with phase := .releasing e w { r with closed := true } })) := by
  simp only [EvSys.step] at h
  split at h
  case h_2 => cases h
  case h_1 e w r hphase =>
  refine ⟨e, w, r, hphase, ?_⟩
  split at h
  · next hclosed => exact .inl ⟨hclosed, (Option.some.inj h).symm⟩
  · next hclosed => exact .inr ⟨Bool.eq_false_iff.mpr hclosed, (Option.some.inj h).symm⟩

theorem EvSys.step_hbTest (h : s.step (.hbTest now) = some s') :
    ∃ hdr rest, s.hb = none ∧ s.que = hdr :: rest ∧
    ((s.evicts hdr now = true ∧
      s' = { s with que := rest, hb := some ⟨hdr.pconn, .delayed, false⟩ }) ∨
     s' = { s with que := rest }) := by
  simp only [EvSys.step] at h
  split at h
  case h_2 => cases h
  case h_1 hdr rest hhb hque =>
  refine ⟨hdr, rest, hhb, hque, ?_⟩
  split at h
  · next hev => exact .inl ⟨hev, (Option.some.inj h).symm⟩
  · exact .inr (Option.some.inj h).symm

/-- The heartbeat thread carries its release on. -/
theorem EvSys.step_hbRelease (h : s.step (.hbRelease now) = some s') :
    ∃ r, s.hb = some r ∧
    ((r.closed = true ∧ s' = { s.finishStep r now with hb := none }) ∨
     (r.closed = false ∧ s' = { s.closeStep r with hb := some { r with closed := true } })) := by
  simp only [EvSys.step] at h
  split at h
  case h_2 => cases h
  case h_1 r hhb =>
  refine ⟨r, hhb, ?_⟩
  split at h
  · next hclosed => exact .inl ⟨hclosed, (Option.some.inj h).symm⟩
  · next hclosed => exact .inr ⟨Bool.eq_false_iff.mpr hclosed, (Option.some.inj h).symm⟩

end

/-! ## The property and its condition -/

/-- Every descriptor is passed to `close` at most once, and by the connection that owns it; every
occupancy is put in the free queue at most once, and the queue has no connection twice. -/
structure EvSys.ClosedOnce (s : EvSys) : Prop where
  once : (s.closes.map fun k => (k.conn, k.occ)).Nodup
  owner : ∀ k ∈ s.closes, k.owner = some (k.conn, k.occ)
  freed : s.frees.Nodup
  queue : s.pool.freeQueue.Nodup

/-- The release the epoll thread is making. -/
def Phase.rel : Phase → Option Rel
  | .releasing _ _ r => some r
  | .fetch => none
  | .handle .. => none
  | .reading .. => none

/-- The connection whose read handler is running. -/
def Phase.reader : Phase → Option ConnId
  | .reading e _ => some e.conn
  | .fetch => none
  | .handle .. => none
  | .releasing .. => none

/-- The descriptor of the connection is open, and no thread is releasing it. -/
def EvSys.Releasable (s : EvSys) (c : ConnId) : Prop :=
  c ∈ s.owners ∧ ∀ r ∈ s.phase.rel.toList ++ s.hb.toList, r.conn ≠ c

/-- What the `recv` of the step answers. -/
def EvAct.received : EvAct → Option RecvRet
  | .recv ret => some ret
  | _ => none

/-- When the heartbeat thread looks at a client. -/
def EvAct.tested : EvAct → Option Int
  | .hbTest now => some now
  | _ => none

/-- A thread decides to release a connection only when it is releasable. -/
def DecideOk (s : EvSys) (act : EvAct) : Prop :=
  (∀ ret ∈ act.received, (recvProcess ret).2 ≠ none → ∀ c ∈ s.phase.reader, s.Releasable c) ∧
    ∀ now ∈ act.tested, ∀ h ∈ s.que.head?, s.evicts h now = true → s.Releasable h.pconn

/-! ## Where the connections are -/

/-- Every connection is in one place, `infl` counting those that are closed and on their way to the
recycle set or the free queue; those about to be closed, which `pend` counts, own a descriptor; what
has been closed or freed in the current occupancy is no longer open, or is free. -/
structure Places (s : EvSys) (pend infl : ConnId → Nat) : Prop where
  range : s.pool.pconnsQueue = List.range s.pool.pconnsQueue.length
  once : ∀ c, s.pool.freeQueue.count c + s.pool.recySet.count c + s.owners.count c + infl c =
    s.pool.pconnsQueue.count c
  pend : ∀ c, pend c ≤ s.owners.count c
  fds : (s.fds.map Desc.fd).Nodup
  own : ∀ d ∈ s.fds, (s.pool.conn d.conn).fd = d.fd ∧ d.occ = s.occ d.conn
  closed : ∀ k ∈ s.closes, k.owner = some (k.conn, k.occ) ∧ k.occ ≤ s.occ k.conn ∧
    (k.occ = s.occ k.conn → k.conn ∉ s.owners)
  closes : (s.closes.map fun k => (k.conn, k.occ)).Nodup
  freed : ∀ x ∈ s.frees, x.2 ≤ s.occ x.1 ∧ (x.2 = s.occ x.1 → x.1 ∈ s.pool.freeQueue)
  frees : s.frees.Nodup

section
variable {s : EvSys} {pend infl : ConnId → Nat}

theorem Places.count_le (h : Places s pend infl) (c : ConnId) :
    s.pool.pconnsQueue.count c ≤ 1 := by
  rw [h.range]
  exact List.nodup_iff_count_le_one.mp List.nodup_range c

theorem Places.fresh (h : Places s pend infl) :
    s.pool.pconnsQueue.count s.pool.pconnsQueue.length = 0 := by
  rw [List.count_eq_zero, h.range]
  simp

theorem Places.closedOnce (h : Places s pend infl) : s.ClosedOnce := by
  refine ⟨h.closes, fun k hk => (h.closed k hk).1, h.frees, ?_⟩
  rw [List.nodup_iff_count_le_one]
  intro c
  have hle := h.count_le c
  have honce := h.once c
  omega

/-- The places say nothing about the threads and the timers. -/
theorem Places.frame {s' : EvSys} {pend' infl' : ConnId → Nat} (h : Places s pend infl)
    (hpool : s'.pool = s.pool) (hfds : s'.fds = s.fds) (hocc : s'.occ = s.occ)
    (hcloses : s'.closes = s.closes) (hfrees : s'.frees = s.frees)
    (hpend : ∀ c, pend' c = pend c) (hinfl : ∀ c, infl' c = infl c) : Places s' pend' infl' := by
  have howners : s'.owners = s.owners := by unfold EvSys.owners; rw [hfds]
  obtain rfl : pend' = pend := funext hpend
  obtain rfl : infl' = infl := funext hinfl
  constructor
  · rw [hpool]; exact h.range
  · rw [hpool, howners]; exact h.once
  · rw [howners]; exact h.pend
  · rw [hfds]; exact h.fds
  · rw [hpool, hfds, hocc]; exact h.own
  · rw [hcloses, hocc, howners]; exact h.closed
  · rw [hcloses]; exact h.closes
  · rw [hpool, hfrees, hocc]; exact h.freed
  · rw [hfrees]; exact h.frees

/-- A step of the threads alone. -/
theorem Places.threads (h : Places s pend infl) (timerQueue : List (Int × MsgHdr))
    (batch : List Event) (phase : Phase) (que : List MsgHdr) (hb : Option Rel)
    (dispatched : List Dispatch) :
    Places { s with
      timerQueue := timerQueue
      batch := batch
      phase := phase
      que := que
      hb := hb
      dispatched := dispatched } pend infl :=
  h.frame rfl rfl rfl rfl rfl (fun _ => rfl) (fun _ => rfl)

/-- A connection that owns an open descriptor: the descriptor is its own, and the only one. -/
theorem Places.owned (h : Places s pend infl) {c : ConnId} (hc : c ∈ s.owners) :
    s.owners.count c = 1 ∧ s.pool.freeQueue.count c = 0 ∧ s.pool.recySet.count c = 0 ∧
      infl c = 0 ∧ ∃ d ∈ s.fds, d.conn = c ∧ (s.pool.conn c).fd = d.fd ∧ d.occ = s.occ c ∧
        s.fds.find? (fun x => x.fd == (s.pool.conn c).fd) = some d := by
  have hpos : 0 < s.owners.count c := List.count_pos_iff.mpr hc
  have hle := h.count_le c
  have honce := h.once c
  refine ⟨by omega, by omega, by omega, by omega, ?_⟩
  obtain ⟨d, hd, rfl⟩ := List.mem_map.mp hc
  obtain ⟨hfd, hocc⟩ := h.own d hd
  refine ⟨d, hd, rfl, hfd, hocc, ?_⟩
  obtain ⟨x, hx⟩ := Option.isSome_iff_exists.mp
    (List.find?_isSome.mpr ⟨d, hd, by simp [hfd]⟩ :
      (s.fds.find? (fun x => x.fd == (s.pool.conn d.conn).fd)).isSome)
  have hxfd : x.fd = d.fd := by
    have := List.find?_some hx
    rw [hfd] at this
    exact beq_iff_eq.mp this
  rw [hx, List.inj_on_of_nodup_map h.fds (List.mem_of_find?_eq_some hx) hd hxfd]

theorem Places.owned_pool (h : Places s pend infl) {c : ConnId} (hc : c ∈ s.owners) :
    c ∈ s.pool.pconnsQueue := by
  have hpos : 0 < s.owners.count c := List.count_pos_iff.mpr hc
  have honce := h.once c
  exact List.count_pos_iff.mp (by omega)

/-- Removing the descriptor of a connection that owns one takes it from this connection only. -/
theorem Places.remove (h : Places s pend infl) {c : ConnId} (hc : c ∈ s.owners) :
    (∀ x, s.owners.count x =
      ((KeyTable.remove Desc.fd (s.pool.conn c).fd s.fds).map Desc.conn).count x + [c].count x) ∧
    ((KeyTable.remove Desc.fd (s.pool.conn c).fd s.fds).map Desc.fd).Nodup ∧
    ∀ x ∈ KeyTable.remove Desc.fd (s.pool.conn c).fd s.fds, x ∈ s.fds ∧ x.conn ≠ c := by
  obtain ⟨hone, -, -, -, d, hd, rfl, hfd, -⟩ := h.owned hc
  rw [hfd]
  exact KeyTable.remove_spec h.fds hd (Nat.le_of_eq hone)

/-- `close(c->fd)` by a thread that is releasing `c`: the descriptor is its own. -/
theorem Places.close {r : Rel} (h : Places s (fun d => pend d + [r.conn].count d) infl) :
    Places (s.closeStep r) pend (fun d => infl d + [r.conn].count d) := by
  have hself : [r.conn].count r.conn = 1 := List.count_cons_self
  have hc : r.conn ∈ s.owners := by
    apply List.count_pos_iff.mp
    have := h.pend r.conn
    omega
  obtain ⟨-, -, -, -, d, hd, hconn, hfd, hocc, hfind⟩ := h.owned hc
  obtain ⟨hcount, hnodup, hrest⟩ := h.remove hc
  have howners : (s.closeStep r).owners =
      (KeyTable.remove Desc.fd (s.pool.conn r.conn).fd s.fds).map Desc.conn := rfl
  have hcall : (s.closeStep r).closes = s.closes ++ [⟨r.conn, s.occ r.conn,
      some (r.conn, s.occ r.conn)⟩] := by
    unfold EvSys.closeStep
    simp only [hfind, Option.map_some, hconn, hocc]
  refine ⟨h.range, fun x => ?_, fun x => ?_, hnodup, fun x hx => h.own x (hrest x hx).1, ?_, ?_,
    h.freed, h.frees⟩
  · have honce := h.once x
    have hx := hcount x
    rw [howners]
    show s.pool.freeQueue.count x + s.pool.recySet.count x + _ + (infl x + [r.conn].count x) =
      s.pool.pconnsQueue.count x
    omega
  · have hp := h.pend x
    have hx := hcount x
    rw [howners]
    omega
  · rw [hcall]
    intro k hk
    rcases List.mem_append.mp hk with hk | hk
    · obtain ⟨h1, h2, h3⟩ := h.closed k hk
      refine ⟨h1, h2, fun he hin => ?_⟩
      rw [howners] at hin
      obtain ⟨x, hx, hxk⟩ := List.mem_map.mp hin
      exact h3 he (List.mem_map.mpr ⟨x, (hrest x hx).1, hxk⟩)
    · obtain rfl := List.mem_singleton.mp hk
      refine ⟨rfl, Nat.le_refl _, fun _ hin => ?_⟩
      rw [howners] at hin
      obtain ⟨x, hx, hxk⟩ := List.mem_map.mp hin
      exact (hrest x hx).2 hxk
  · rw [hcall, List.map_append, List.nodup_append]
    refine ⟨h.closes, List.nodup_singleton _, fun a ha b hb hab => ?_⟩
    obtain ⟨k, hk, rfl⟩ := List.mem_map.mp ha
    obtain rfl := List.mem_singleton.mp hb
    obtain ⟨h1, h2⟩ := Prod.mk.inj hab
    obtain ⟨-, -, hnot⟩ := h.closed k hk
    rw [h1] at hnot
    exact hnot h2 hc

/-- `free_conn` of a connection that is in neither queue nor open. -/
theorem Places.free {c : ConnId} {p : Pool} (h : Places s pend (fun d => infl d + [c].count d))
    (hp : p = s.pool.freeConn c) :
    Places { s with pool := p, frees := s.frees ++ [(c, s.occ c)] } pend infl := by
  subst hp
  have hself : [c].count c = 1 := List.count_cons_self
  have hout : s.pool.freeQueue.count c = 0 ∧ s.owners.count c = 0 := by
    have hle := h.count_le c
    have honce := h.once c
    omega
  refine ⟨h.range, fun x => ?_, h.pend, h.fds, fun d hd => ?_, h.closed, h.closes, fun x hx => ?_, ?_⟩
  · have honce := h.once x
    show (s.pool.freeQueue ++ [c]).count x + s.pool.recySet.count x + s.owners.count x + infl x = _
    rw [List.count_append]
    show _ = s.pool.pconnsQueue.count x
    omega
  · have hne : d.conn ≠ c := fun he =>
      List.count_eq_zero.mp hout.2 (he ▸ List.mem_map_of_mem hd)
    show ((s.pool.freeConn c).conn d.conn).fd = d.fd ∧ d.occ = s.occ d.conn
    rw [Pool.freeConn_other _ hne]
    exact h.own d hd
  · show x.2 ≤ s.occ x.1 ∧ (x.2 = s.occ x.1 → x.1 ∈ s.pool.freeQueue ++ [c])
    rcases List.mem_append.mp hx with hx | hx
    · exact ⟨(h.freed x hx).1, fun he => List.mem_append_left _ ((h.freed x hx).2 he)⟩
    · obtain rfl := List.mem_singleton.mp hx
      exact ⟨Nat.le_refl _, fun _ => List.mem_append_right _ (List.mem_singleton_self c)⟩
  · show (s.frees ++ [(c, s.occ c)]).Nodup
    rw [List.nodup_append]
    refine ⟨h.frees, List.nodup_singleton _, fun a ha b hb hab => ?_⟩
    obtain rfl := List.mem_singleton.mp hb
    subst hab
    exact List.count_eq_zero.mp hout.1 ((h.freed _ ha).2 rfl)

/-- The locked part of a release, of a connection that has been closed. -/
theorem Places.finish {r : Rel} (now : Int)
    (h : Places s pend (fun d => infl d + [r.conn].count d)) :
    Places (s.finishStep r now) pend infl := by
  have hself : [r.conn].count r.conn = 1 := List.count_cons_self
  unfold EvSys.finishStep
  cases r.kind with
  | immediate => exact h.free rfl
  | delayed =>
    have hnot : r.conn ∉ s.pool.recySet := by
      have hle := h.count_le r.conn
      have honce := h.once r.conn
      exact List.count_eq_zero.mp (by omega)
    have hown : ∀ d ∈ s.fds, ((s.pool.insertRecy r.conn now).conn d.conn).fd = d.fd ∧
        d.occ = s.occ d.conn := by
      intro d hd
      rw [(s.pool.insertRecy_fd r.conn d.conn now).1]
      exact h.own d hd
    show Places { s with pool := s.pool.insertRecy r.conn now } pend infl
    rw [Pool.insertRecy_of_notMem hnot] at hown ⊢
    refine ⟨h.range, fun x => ?_, h.pend, h.fds, hown, h.closed, h.closes, h.freed, h.frees⟩
    have honce := h.once x
    have hcons : (r.conn :: s.pool.recySet).count x =
        s.pool.recySet.count x + [r.conn].count x := by
      rw [List.count_cons, List.count_cons, List.count_nil]
      omega
    show s.pool.freeQueue.count x + (r.conn :: s.pool.recySet).count x + s.owners.count x +
      infl x = s.pool.pconnsQueue.count x
    omega

/-- The recycler frees a connection. -/
theorem Places.recycle {c : ConnId} (h : Places s pend infl) (hc : c ∈ s.pool.recySet) :
    Places { s with pool := s.pool.recyConn c, frees := s.frees ++ [(c, s.occ c)] } pend infl := by
  have herase : ∀ x, (s.pool.recySet.erase c).count x + [c].count x = s.pool.recySet.count x := by
    intro x
    have hpos : 0 < s.pool.recySet.count c := List.count_pos_iff.mpr hc
    rw [List.count_erase, List.count_cons, List.count_nil]
    by_cases hx : c = x
    · subst hx
      simp only [beq_self_eq_true, if_true]
      omega
    · simp only [beq_iff_eq, hx, if_false]
      omega
  -- between the set and the queue the connection is in flight
  have hout : Places { s with pool := { s.pool with
      recySet := s.pool.recySet.erase c
      totalRecyConnsCnt := s.pool.totalRecyConnsCnt - 1 } } pend (fun d => infl d + [c].count d) := by
    refine ⟨h.range, fun x => ?_, h.pend, h.fds, h.own, h.closed, h.closes, h.freed, h.frees⟩
    have honce := h.once x
    have hx := herase x
    show s.pool.freeQueue.count x + (s.pool.recySet.erase c).count x + s.owners.count x +
      (infl x + [c].count x) = s.pool.pconnsQueue.count x
    omega
  exact hout.free rfl

/-- What `event_accept` does. -/
theorem EvSys.accept_spec {s s' : EvSys} {fd now : Int} {c : ConnId}
    (hs : s.accept fd now = some (c, s')) : ∃ p, s.pool.getConn fd now = some (c, p) ∧
      (0 ≤ fd ∧ fd ∉ s.fds.map Desc.fd) ∧ s' = { s with
        pool := p
        occ := Function.update s.occ c (s.occ c + 1)
        fds := ⟨fd, c, (p.conn c).instanceBit, s.occ c + 1, false⟩ :: s.fds
        timerQueue := emplace s.timerQueue (now + s.heartWaitTime) ⟨c, (p.conn c).curSeq⟩ } := by
  obtain ⟨hfd, hs⟩ := Option.ite_none_right_eq_some.mp hs
  obtain ⟨⟨c', p⟩, hget, heq⟩ := Option.map_eq_some_iff.mp hs
  obtain ⟨rfl, rfl⟩ := Prod.mk.inj heq
  exact ⟨p, hget, hfd, rfl⟩

/-- The connection that `get_conn` hands out owns no descriptor. -/
theorem Places.getConn_unused {p : Pool} {fd now : Int} {c : ConnId} (h : Places s pend infl)
    (hget : s.pool.getConn fd now = some (c, p)) : s.owners.count c = 0 := by
  have hle := h.count_le c
  have honce := h.once c
  obtain ⟨-, rest, hq, -⟩ | ⟨-, hc, -⟩ := Pool.getConn_cases hget
  · rw [hq, List.count_cons_self] at honce
    omega
  · rw [hc, h.fresh] at honce
    rw [hc]
    omega

/-- What was closed before belongs to an earlier occupancy of the connection handed out. -/
theorem Places.closed_update (h : Places s pend infl) (c : ConnId) :
    ∀ k ∈ s.closes, k.owner = some (k.conn, k.occ) ∧
      k.occ ≤ Function.update s.occ c (s.occ c + 1) k.conn ∧
      (k.occ = Function.update s.occ c (s.occ c + 1) k.conn → k.conn ∉ c :: s.owners) := by
  intro k hk
  obtain ⟨howner, hle, hopen⟩ := h.closed k hk
  rw [Function.update_apply, List.mem_cons]
  split
  next heq =>
    rw [heq] at hle
    refine ⟨howner, by omega, fun he => ?_⟩
    omega
  next hne => exact ⟨howner, hle, fun he hin => hin.elim hne (hopen he)⟩

/-- And so does what was freed. -/
theorem Places.freed_update (h : Places s pend infl) (c : ConnId) :
    ∀ x ∈ s.frees, x.2 ≤ Function.update s.occ c (s.occ c + 1) x.1 ∧
      (x.2 = Function.update s.occ c (s.occ c + 1) x.1 → x.1 ≠ c ∧ x.1 ∈ s.pool.freeQueue) := by
  intro x hx
  obtain ⟨hle, hfree⟩ := h.freed x hx
  rw [Function.update_apply]
  split
  next heq =>
    rw [heq] at hle
    refine ⟨by omega, fun he => ?_⟩
    omega
  next hne => exact ⟨hle, fun he => ⟨hne, hfree he⟩⟩

/-- `event_accept`: the connection was free, or is new, and now owns the descriptor. -/
theorem Places.accept {s' : EvSys} {fd now : Int} {c : ConnId} (h : Places s pend infl)
    (hs : s.accept fd now = some (c, s')) :
    Places s' pend infl ∧ c ∈ s'.owners ∧ pend c = 0 ∧ (s'.phase = s.phase ∧ s'.hb = s.hb) := by
  obtain ⟨p, hget, hfd, rfl⟩ := EvSys.accept_spec hs
  have hout := h.getConn_unused hget
  have hnot : ∀ d ∈ s.fds, d.conn ≠ c := fun d hd he =>
    List.count_eq_zero.mp hout (he ▸ List.mem_map_of_mem hd)
  refine ⟨?_, List.mem_cons_self .., by have := h.pend c; omega, rfl, rfl⟩
  have hown : ∀ d ∈ (⟨fd, c, (p.conn c).instanceBit, s.occ c + 1, false⟩ :: s.fds : List Desc),
      (p.conn d.conn).fd = d.fd ∧ d.occ = Function.update s.occ c (s.occ c + 1) d.conn := by
    intro d hd
    rcases List.mem_cons.mp hd with rfl | hd
    · refine ⟨Pool.getConn_fd hget, ?_⟩
      show s.occ c + 1 = Function.update s.occ c (s.occ c + 1) c
      rw [Function.update_self]
    · rw [Pool.getConn_other hget (hnot d hd), Function.update_of_ne (hnot d hd)]
      exact h.own d hd
  have hnodup : (((⟨fd, c, (p.conn c).instanceBit, s.occ c + 1, false⟩ : Desc) ::
      s.fds).map Desc.fd).Nodup := List.nodup_cons.mpr ⟨hfd.2, h.fds⟩
  have hpend : ∀ x, pend x ≤ (c :: s.owners).count x := fun x => by
    have := h.pend x
    rw [List.count_cons]
    omega
  have hclosed := h.closed_update c
  have hfreed := h.freed_update c
  obtain ⟨-, rest, hq, rfl⟩ | ⟨-, hc, rfl⟩ := Pool.getConn_cases hget
  · refine ⟨h.range, fun x => ?_, hpend, hnodup, hown, hclosed, h.closes, fun x hx => ?_, h.frees⟩
    · have honce := h.once x
      rw [hq, List.count_cons] at honce
      show rest.count x + s.pool.recySet.count x + (c :: s.owners).count x + infl x =
        s.pool.pconnsQueue.count x
      rw [List.count_cons]
      omega
    · refine ⟨(hfreed x hx).1, fun he => ?_⟩
      obtain ⟨hne, hin⟩ := (hfreed x hx).2 he
      rw [hq] at hin
      exact (List.mem_cons.mp hin).resolve_left hne
  · refine ⟨?_, fun x => ?_, hpend, hnodup, hown, hclosed, h.closes, fun x hx => ?_, h.frees⟩
    · show s.pool.pconnsQueue ++ [c] = List.range (s.pool.pconnsQueue ++ [c]).length
      rw [List.length_append, List.length_singleton, List.range_succ, ← h.range, hc]
    · have honce := h.once x
      show s.pool.freeQueue.count x + s.pool.recySet.count x + (c :: s.owners).count x + infl x =
        (s.pool.pconnsQueue ++ [c]).count x
      rw [List.count_cons, List.count_append, List.count_cons, List.count_nil]
      omega
    · exact ⟨(hfreed x hx).1, fun he => ((hfreed x hx).2 he).2⟩

end

/-! ## The threads -/

/-- How often a thread is about to close `c`. -/
def pendAt (r : Option Rel) (c : ConnId) : Nat :=
  match r with
  | some r => if r.closed then 0 else [r.conn].count c
  | none => 0

/-- How often a thread has closed `c` and not yet put it away. -/
def inflAt (r : Option Rel) (c : ConnId) : Nat :=
  match r with
  | some r => if r.closed then [r.conn].count c else 0
  | none => 0

/-- Every connection is in one place, the two threads included. -/
def EvSys.Inv (s : EvSys) : Prop :=
  Places s (fun c => pendAt s.phase.rel c + pendAt s.hb c)
    (fun c => inflAt s.phase.rel c + inflAt s.hb c)

/-- A thread that is not releasing a connection decides to release one that is releasable. -/
theorem Places.decide {s : EvSys} {pend infl : ConnId → Nat} {c : ConnId}
    (h : Places s pend infl) (hc : c ∈ s.owners) (hp : pend c = 0) :
    Places s (fun d => pend d + [c].count d) infl := by
  refine ⟨h.range, h.once, fun d => ?_, h.fds, h.own, h.closed, h.closes, h.freed, h.frees⟩
  have hle := h.pend d
  have hone := (h.owned hc).1
  rw [List.count_cons, List.count_nil]
  by_cases hd : c = d
  · subst hd
    simp only [beq_self_eq_true, if_true]
    omega
  · simp only [beq_iff_eq, hd, if_false]
    omega

theorem pendAt_pos {r : Rel} (h : r.closed = false) : 0 < pendAt (some r) r.conn := by
  simp only [pendAt, h, Bool.false_eq_true, if_false, List.count_cons_self]
  exact Nat.succ_pos _

theorem pendAt_eq_zero {r : Option Rel} {c : ConnId} (h : ∀ x ∈ r, x.conn ≠ c) :
    pendAt r c = 0 := by
  cases r with
  | none => rfl
  | some x =>
    have hne : [x.conn].count c = 0 :=
      List.count_eq_zero.mpr fun hm => h x rfl (List.mem_singleton.mp hm).symm
    simp only [pendAt, hne, ite_self]

/-- A thread that is releasing a connection closes it: it was about to, and now it has. -/
theorem Places.carryOn_close {s : EvSys} {pend infl : ConnId → Nat} {r : Rel}
    (h : Places s (fun d => pendAt (some r) d + pend d) (fun d => inflAt (some r) d + infl d))
    (hr : r.closed = false) :
    Places (s.closeStep r) pend (fun d => inflAt (some { r with closed := true }) d + infl d) := by
  have hput : Places s (fun d => pend d + [r.conn].count d) infl := by
    apply h.frame rfl rfl rfl rfl rfl
    · intro d
      simp only [pendAt, hr, Bool.false_eq_true, if_false]
      exact Nat.add_comm _ _
    · intro d
      simp only [inflAt, hr, Bool.false_eq_true, if_false]
      exact (Nat.zero_add _).symm
  apply hput.close.frame rfl rfl rfl rfl rfl
  · intro d
    rfl
  · intro d
    exact Nat.add_comm _ _

/-- A thread that has closed a connection puts it away. -/
theorem Places.carryOn_finish {s : EvSys} {pend infl : ConnId → Nat} {r : Rel}
    (h : Places s (fun d => pendAt (some r) d + pend d) (fun d => inflAt (some r) d + infl d))
    (hr : r.closed = true) (now : Int) : Places (s.finishStep r now) pend infl := by
  apply Places.finish now
  apply h.frame rfl rfl rfl rfl rfl
  · intro d
    simp only [pendAt, hr, if_true]
    exact (Nat.zero_add _).symm
  · intro d
    simp only [inflAt, hr, if_true]
    exact Nat.add_comm _ _

/-- The locked part of a release concerns neither the descriptors nor the threads. -/
theorem EvSys.finishStep_same (s : EvSys) (r : Rel) (now : Int) :
    (s.finishStep r now).owners = s.owners ∧ (s.finishStep r now).occ = s.occ ∧
      (s.finishStep r now).phase = s.phase ∧ (s.finishStep r now).hb = s.hb ∧
      (s.finishStep r now).dispatched = s.dispatched := by
  unfold EvSys.finishStep
  cases r.kind <;> exact ⟨rfl, rfl, rfl, rfl, rfl⟩

/-- Storing a connection with its own descriptor changes no place. -/
theorem Places.setConn {s : EvSys} {pend infl : ConnId → Nat} (h : Places s pend infl) {c : ConnId}
    {x : Conn} (hx : x.fd = (s.pool.conn c).fd) :
    Places { s with pool := s.pool.setConn c x } pend infl := by
  refine ⟨h.range, h.once, h.pend, h.fds, fun d hd => ?_, h.closed, h.closes, h.freed, h.frees⟩
  obtain ⟨hfd, hocc⟩ := h.own d hd
  refine ⟨?_, hocc⟩
  show ((s.pool.setConn c x).conn d.conn).fd = d.fd
  by_cases hc : d.conn = c
  · rw [hc, Pool.setConn_self, hx, ← hc]
    exact hfd
  · rw [Pool.setConn_other _ _ _ hc]
    exact hfd

/-- Arming `EPOLLOUT` changes no place. -/
theorem Places.arm {s : EvSys} {pend infl : ConnId → Nat} (h : Places s pend infl) (c : ConnId)
    (out : Bool) :
    Places { s with fds := s.fds.map (fun d => if d.conn = c then { d with out := out } else d) }
      pend infl := by
  have hmap : ∀ {β : Type} (f : Desc → β), (∀ d, f { d with out := out } = f d) →
      (s.fds.map (fun d => if d.conn = c then { d with out := out } else d)).map f = s.fds.map f := by
    intro β f hf
    rw [List.map_map]
    apply List.map_congr_left
    intro d _
    show f (if d.conn = c then { d with out := out } else d) = f d
    split
    · exact hf d
    · rfl
  have howners : EvSys.owners { s with
      fds := s.fds.map (fun d => if d.conn = c then { d with out := out } else d) } = s.owners :=
    hmap Desc.conn fun _ => rfl
  refine ⟨h.range, ?_, ?_, ?_, fun d hd => ?_, ?_, h.closes, h.freed, h.frees⟩
  · rw [howners]; exact h.once
  · rw [howners]; exact h.pend
  · show ((s.fds.map _).map Desc.fd).Nodup
    rw [hmap Desc.fd fun _ => rfl]
    exact h.fds
  · obtain ⟨d', hd', rfl⟩ := List.mem_map.mp hd
    have := h.own d' hd'
    show (s.pool.conn (if d'.conn = c then { d' with out := out } else d').conn).fd =
      (if d'.conn = c then { d' with out := out } else d').fd ∧
      (if d'.conn = c then { d' with out := out } else d').occ =
        s.occ (if d'.conn = c then { d' with out := out } else d').conn
    split <;> exact this
  · rw [howners]; exact h.closed

/-- `event_accept` whose registration fails frees the connection at once. -/
theorem EvSys.Inv.acceptFails {s s' : EvSys} {fd now : Int} (h : s.Inv)
    (hs : s.step (.acceptFails fd now) = some s') : s'.Inv := by
  simp only [EvSys.step, Option.ite_none_right_eq_some, Option.map_eq_some_iff] at hs
  obtain ⟨-, ⟨c, s₁⟩, hacc, rfl⟩ := hs
  obtain ⟨hp, hc, hzero, hphase, hhb⟩ := h.accept hacc
  have hclose := (hp.decide hc hzero).close (r := ⟨c, .immediate, false⟩)
  have hfree := hclose.finish (r := ⟨c, .immediate, true⟩) now
  exact hfree.frame rfl rfl rfl rfl rfl
    (fun d => by show pendAt s₁.phase.rel d + pendAt s₁.hb d = _; rw [hphase, hhb])
    (fun d => by show inflAt s₁.phase.rel d + inflAt s₁.hb d = _; rw [hphase, hhb])

/-- The epoll thread receives, and may decide to release. -/
theorem EvSys.Inv.recv {s s' : EvSys} {ret : RecvRet} (h : s.Inv) (hok : DecideOk s (.recv ret))
    (hs : s.step (.recv ret) = some s') : s'.Inv := by
  obtain ⟨e, w, hphase, rfl | ⟨kind, hrel, rfl⟩⟩ := EvSys.step_recv hs
  · exact h
  · obtain ⟨hopen, hothers⟩ := hok.1 ret rfl (by rw [hrel]; simp) e.conn (by rw [hphase]; rfl)
    unfold EvSys.Inv at h
    rw [hphase] at h
    have hzero : pendAt s.hb e.conn = 0 :=
      pendAt_eq_zero fun x hx => hothers x (List.mem_append_right _ (Option.mem_toList.mpr hx))
    refine (h.decide hopen (by simp only [hzero]; rfl)).frame rfl rfl rfl rfl rfl ?_ ?_
    · intro d
      show [e.conn].count d + pendAt s.hb d = 0 + pendAt s.hb d + [e.conn].count d
      omega
    · intro d
      rfl

/-- The epoll thread goes on with a release. -/
theorem EvSys.Inv.release {s s' : EvSys} {now : Int} (h : s.Inv)
    (hs : s.step (.release now) = some s') : s'.Inv := by
  obtain ⟨e, w, r, hphase, hcase⟩ := EvSys.step_release hs
  unfold EvSys.Inv at h
  rw [hphase] at h
  obtain ⟨hclosed, rfl⟩ | ⟨hclosed, rfl⟩ := hcase
  · obtain ⟨-, -, -, hhb, -⟩ := s.finishStep_same r now
    refine (h.carryOn_finish hclosed now).frame rfl rfl rfl rfl rfl ?_ ?_
    · intro d
      show 0 + pendAt (s.finishStep r now).hb d = pendAt s.hb d
      rw [hhb, Nat.zero_add]
    · intro d
      show 0 + inflAt (s.finishStep r now).hb d = inflAt s.hb d
      rw [hhb, Nat.zero_add]
  · refine (h.carryOn_close hclosed).frame rfl rfl rfl rfl rfl ?_ ?_
    · intro d
      exact Nat.zero_add _
    · intro d
      rfl

/-- The heartbeat thread looks at a client, and may decide to evict it. -/
theorem EvSys.Inv.hbTest {s s' : EvSys} {now : Int} (h : s.Inv) (hok : DecideOk s (.hbTest now))
    (hs : s.step (.hbTest now) = some s') : s'.Inv := by
  obtain ⟨hdr, rest, hhb, hque, ⟨hev, rfl⟩ | rfl⟩ := EvSys.step_hbTest hs
  · obtain ⟨hopen, hothers⟩ := hok.2 now rfl hdr (by rw [hque]; rfl) hev
    unfold EvSys.Inv at h
    rw [hhb] at h
    have hzero : pendAt s.phase.rel hdr.pconn = 0 :=
      pendAt_eq_zero fun x hx => hothers x (List.mem_append_left _ (Option.mem_toList.mpr hx))
    exact (h.decide hopen (by simp only [hzero]; rfl)).threads ..
  · exact h.threads ..

/-- The heartbeat thread goes on with a release. -/
theorem EvSys.Inv.hbRelease {s s' : EvSys} {now : Int} (h : s.Inv)
    (hs : s.step (.hbRelease now) = some s') : s'.Inv := by
  obtain ⟨r, hhb, hcase⟩ := EvSys.step_hbRelease hs
  unfold EvSys.Inv at h
  rw [hhb] at h
  -- the thread that goes on is the first one
  have h : Places s (fun d => pendAt (some r) d + pendAt s.phase.rel d)
      (fun d => inflAt (some r) d + inflAt s.phase.rel d) :=
    h.frame rfl rfl rfl rfl rfl (fun _ => Nat.add_comm _ _) (fun _ => Nat.add_comm _ _)
  obtain ⟨hclosed, rfl⟩ | ⟨hclosed, rfl⟩ := hcase
  · obtain ⟨-, -, hphase, -, -⟩ := s.finishStep_same r now
    refine (h.carryOn_finish hclosed now).frame rfl rfl rfl rfl rfl ?_ ?_
    · intro d
      show pendAt (s.finishStep r now).phase.rel d + 0 = pendAt s.phase.rel d
      rw [hphase, Nat.add_zero]
    · intro d
      show inflAt (s.finishStep r now).phase.rel d + 0 = inflAt s.phase.rel d
      rw [hphase, Nat.add_zero]
  · refine (h.carryOn_close hclosed).frame rfl rfl rfl rfl rfl ?_ ?_
    · intro d
      rfl
    · intro d
      exact Nat.add_comm _ _

/-- Every step that meets the condition keeps the places. -/
theorem EvSys.step_inv (s : EvSys) (act : EvAct) (s' : EvSys) (h : s.Inv) (hok : DecideOk s act)
    (hs : s.step act = some s') : s'.Inv := by
  cases act with
  | accept fd now =>
    simp only [EvSys.step, Option.ite_none_right_eq_some, Option.map_eq_some_iff] at hs
    obtain ⟨-, ⟨c, s₁⟩, hacc, rfl⟩ := hs
    obtain ⟨hp, -, -, hphase, hhb⟩ := h.accept hacc
    unfold EvSys.Inv
    rw [hphase, hhb]
    exact hp
  | acceptFails fd now => exact h.acceptFails hs
  | arm c out =>
    simp only [EvSys.step, Option.ite_none_right_eq_some, Option.some.injEq] at hs
    obtain ⟨-, rfl⟩ := hs
    exact h.arm c out
  | ping c now =>
    simp only [EvSys.step, Option.some.injEq] at hs
    subst hs
    exact h.setConn rfl
  | epollWait evs =>
    simp only [EvSys.step, Option.ite_none_right_eq_some, Option.some.injEq] at hs
    obtain ⟨-, rfl⟩ := hs
    exact h.threads ..
  | check =>
    obtain ⟨e, rest, hphase, -, ⟨-, rfl⟩ | ⟨-, rfl⟩⟩ := EvSys.step_check hs
    · exact h.threads ..
    · unfold EvSys.Inv at h
      rw [hphase] at h
      exact h.threads ..
  | callRead =>
    obtain ⟨e, w, hphase, rfl⟩ := EvSys.step_callRead hs
    unfold EvSys.Inv at h
    rw [hphase] at h
    exact h.threads ..
  | recv ret => exact h.recv hok hs
  | readDone =>
    obtain ⟨e, w, hphase, rfl⟩ := EvSys.step_readDone hs
    unfold EvSys.Inv at h
    rw [hphase] at h
    exact h.threads ..
  | callWrite =>
    obtain ⟨e, hphase, rfl⟩ := EvSys.step_callWrite hs
    unfold EvSys.Inv at h
    rw [hphase] at h
    exact h.threads ..
  | next =>
    obtain ⟨e, hphase, rfl⟩ := EvSys.step_next hs
    unfold EvSys.Inv at h
    rw [hphase] at h
    exact h.threads ..
  | release now => exact h.release hs
  | expire now =>
    simp only [EvSys.step, Option.ite_none_right_eq_some, Option.some.injEq] at hs
    obtain ⟨-, rfl⟩ := hs
    exact h.threads ..
  | hbTest now => exact h.hbTest hok hs
  | hbRelease now => exact h.hbRelease hs
  | recycle c now =>
    simp only [EvSys.step, Option.ite_none_right_eq_some, Option.some.injEq] at hs
    obtain ⟨⟨hc, -⟩, rfl⟩ := hs
    exact h.recycle hc

theorem EvSys.start_inv (wait heartWait : Int) (nows : List Int) :
    (EvSys.start wait heartWait nows).Inv := by
  have hinv := Mgx.start_inv wait nows
  refine ⟨hinv.queue, fun c => ?_, fun c => Nat.zero_le _, List.nodup_nil, fun d hd => (nomatch hd),
    fun k hk => (nomatch hk), List.nodup_nil, fun x hx => (nomatch hx), List.nodup_nil⟩
  exact hinv.once c

/-- **Closed once, freed once.** In a run in which a thread decides to release a connection only
while its descriptor is open and no thread is releasing it, every descriptor obtained from `accept`
is passed to `close` at most once, every `close` is made by the connection that owns the number, and
every occupancy enters the free queue at most once, so that the queue has no connection twice. -/
theorem close_once (wait heartWait : Int) (nows : List Int) (acts : List EvAct) (s : EvSys)
    (hrun : run EvSys.step (EvSys.start wait heartWait nows) acts = some s)
    (hok : Meets EvSys.step DecideOk (EvSys.start wait heartWait nows) acts) : s.ClosedOnce :=
  (run_invariant EvSys.step_inv acts _ s (EvSys.start_inv wait heartWait nows) hok hrun).closedOnce

instance (s : EvSys) (c : ConnId) : Decidable (s.Releasable c) :=
  inferInstanceAs (Decidable (c ∈ s.owners ∧ ∀ r ∈ s.phase.rel.toList ++ s.hb.toList, r.conn ≠ c))

instance (s : EvSys) (act : EvAct) : Decidable (DecideOk s act) :=
  inferInstanceAs (Decidable ((∀ ret ∈ act.received, _ → ∀ c ∈ s.phase.reader, _) ∧
    ∀ now ∈ act.tested, ∀ h ∈ s.que.head?, _ → _))

/-- One client shuts down, another one is evicted; the recycler frees both. -/
def shutdownAndEviction : List EvAct :=
  [.accept 5 0, .accept 6 0, .epollWait [⟨0, true, 1, true, false⟩], .check, .callRead,
    .recv (.got []), .release 10, .release 10, .next, .expire 100, .hbTest 100, .hbRelease 100,
    .hbRelease 100, .recycle 0 101, .recycle 1 190, .accept 5 191]

theorem close_once_shutdownAndEviction : ∃ s, run EvSys.step (EvSys.start 80 30 [0, 0])
    shutdownAndEviction = some s ∧ s.frees = [(0, 1), (1, 1)] ∧ s.ClosedOnce :=
  ⟨_, rfl, rfl, close_once 80 30 [0, 0] shutdownAndEviction _ rfl (by decide)⟩

/-- A client is evicted while an event of it is in the batch. -/
def evictedInBatch : List EvAct :=
  [.accept 5 0, .epollWait [⟨0, true, 1, true, false⟩], .expire 100, .hbTest 100, .hbRelease 100,
    .hbRelease 100, .check, .callRead, .recv (.fail .other), .release 100, .release 100,
    .recycle 0 180]

/-- The read handler gets `EBADF`, closes the connection again and frees it, and the recycler frees
it a second time. -/
theorem closed_twice : ∃ s, run EvSys.step (EvSys.start 80 30 [0]) evictedInBatch = some s ∧
    s.closes = [⟨0, 1, some (0, 1)⟩, ⟨0, 1, none⟩] ∧ s.frees = [(0, 1), (0, 1)] ∧
    s.pool.freeQueue = [0, 0] ∧ ¬ s.ClosedOnce :=
  ⟨_, rfl, rfl, rfl, rfl, fun h => absurd h.queue (by decide)⟩

end Mgx
