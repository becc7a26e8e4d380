import Mgx.Generation
import Mgx.TimerQueue

/-
  The heartbeat: who is evicted, and when.

  The epoll thread accepts clients, reads from them and puts each into the timer
  queue; a worker notes when a client sends a PING; the heartbeat thread drains
  the entries that are due and then compares them one by one with their
  connection; the recycler frees connections. Every operation of a queue and every
  check with its eviction is one step, and the steps come in any order. Each step
  that reads the clock reads it no earlier than the last.

  Correspondence (C++ ↔ Lean):
    `event_accept` (net/mgx_socket_accept.cpp)          ↔ `HbSys.accept`, `HbAct.acceptFails`
    `epoll_wait`                                        ↔ `HbAct.epollWait`
    the stale test and the read handler                 ↔ `HbAct.event`
      (`epoll_process_events`, `recv_process`)
    `ping_handler` (bussiness/mgx_logic_socket.cpp)     ↔ `HbAct.ping`
    `insert_recy_conn_queue`, with its heartbeat part   ↔ `HbSys.insertRecy`
    `monitor_timer_th_func` (net/mgx_socket_time.cpp):
      `cur_time > timer_que_head_time`                  ↔ `HbAct.pass`
      a call of `get_over_time_timer`                   ↔ `HbAct.drain`
      a turn of the loop over `que`                     ↔ `HbAct.check`
    `recy_conn_th_func`                                 ↔ `HbAct.recycle`

  The lock of the timer queue is left out: `delete_from_timer_queue` does not take
  it, and without it there are more runs. The histories are `opened`, the
  `m_cur_seq` a connection was last handed out under, which names its occupancy;
  `heard`, the time of that or of the last PING processed for it since; and
  `evictions`.

  What is proved: `eviction_not_premature`. While no read handler runs for a
  connection that is closed already, and no sequence number comes round 2^64 while
  an entry waits, only open connections are evicted, for the occupancy their entry
  was made for, and after more than three waiting times of silence.
-/
namespace Mgx
open Runs

/-- `m_heart_wait_time`, an `int` that `read_conf` keeps from being below 5. -/
structure HeartWaitTime where
  val : Int
  min : 5 ≤ val
  max : val < 2 ^ 31

/-- `m_heart_wait_time * 3`; `none` when the `int` overflows. -/
def HeartWaitTime.thrice (w : HeartWaitTime) : Option Int :=
  if w.val * 3 < 2 ^ 31 then some (w.val * 3) else none

/-- Where the heartbeat thread is: at its test, draining or checking what is due at `curTime`. -/
inductive HbPhase where
  | idle
  | draining (curTime : Int)
  | checking (curTime : Int)
  deriving DecidableEq, Repr

/-- A call of `insert_recy_conn_queue` by the heartbeat thread: for which entry, which occupancy of
the connection was open, when it was last heard of, and when the pass began. -/
structure Eviction where
  hdr : MsgHdr
  occupancy : Option Nat
  heard : Int
  curTime : Int
  deriving DecidableEq, Repr

/-- The server, the timer queue and the three threads; `opened`, `heard` and `evictions` are
histories. -/
structure HbSys where
  server : Server
  timers : TimerQueue
  heartWaitTime : HeartWaitTime
  batch : List Reg
  phase : HbPhase
  que : List MsgHdr
  clock : Int
  opened : ConnId → Nat
  heard : ConnId → Int
  evictions : List Eviction

instance (s : Server) (c : ConnId) : Decidable (s.InUse c) :=
  inferInstanceAs (Decidable (c ∈ _))

/-- `m_cur_seq` of a connection. -/
def Server.curSeq (s : Server) (c : ConnId) : Nat := (s.pool.conn c).curSeq

/-- The occupancy of a connection whose descriptor is open. -/
def HbSys.occupancy (s : HbSys) (c : ConnId) : Option Nat :=
  if s.server.InUse c then some (s.opened c) else none

/-- `event_accept`: the connection is handed out at `now`, registered, and put into the timer queue
at `later`. -/
def HbSys.accept (s : HbSys) (fd now later : Int) : Option HbSys :=
  (s.server.accept fd now).bind fun (c, server) =>
    (s.timers.addToTimerQueue s.heartWaitTime.val later ⟨c, server.curSeq c⟩).map fun timers =>
      { s with
        server := server
        timers := timers
        opened := Function.update s.opened c (server.curSeq c)
        heard := Function.update s.heard c now }

/-- `insert_recy_conn_queue`. -/
def HbSys.insertRecy (s : HbSys) (c : ConnId) (now : Int) : Option HbSys :=
  (s.timers.deleteFromTimerQueue c).map fun timers =>
    { s with
      timers := timers
      server := s.server.insertRecyConnQueue c now }

/-- `ping_handler` for a message with the header `h`; `last_ping_time` is the connection's, whoever
has it now. -/
def HbSys.ping (s : HbSys) (h : MsgHdr) (now : Int) : HbSys :=
  let pool := s.server.pool
  { s with
    server := { s.server with
      pool := pool.setConn h.pconn { pool.conn h.pconn with lastPingTime := now } }
    heard := if s.occupancy h.pconn = some h.curSeq then Function.update s.heard h.pconn now
      else s.heard }

/-- The read handler for an event that passed the stale test; its `recv` answers `ret`. -/
def HbSys.read (s : HbSys) (r : Reg) (ret : RecvRet) (now : Int) : Option HbSys :=
  -- a number that is not open is `EBADF`
  if (s.server.pool.conn r.conn).fd ∈ s.server.fds.map Reg.fd ∨ ret = .fail .other then
    match (recvProcess ret).2 with
    | none => some s
    | some .delayed => s.insertRecy r.conn now
    | some .immediate => some { s with server := s.server.closeConn r.conn }
  else none

/-- The heartbeat thread is about to evict the connection of `h`. -/
def HbSys.record (s : HbSys) (h : MsgHdr) (curTime : Int) : HbSys :=
  { s with evictions := s.evictions ++
      [⟨h, s.occupancy h.pconn, s.heard h.pconn, curTime⟩] }

/-- A turn of the loop over `que`. -/
def HbSys.check (s : HbSys) (h : MsgHdr) (curTime now : Int) : Option HbSys :=
  if seqEq h.curSeq (s.server.curSeq h.pconn) then
    s.heartWaitTime.thrice.bind fun limit =>
      if curTime - (s.server.pool.conn h.pconn).lastPingTime > limit then
        (s.record h curTime).insertRecy h.pconn now
      else some s
  else some s

/-- What can happen. -/
inductive HbAct where
  | accept (fd now later : Int)
  | acceptFails (fd now : Int)
  | epollWait (evs : List Reg)
  | event (ret : RecvRet) (now : Int)
  | ping (h : MsgHdr) (now : Int)
  | pass (now : Int)
  | drain
  | check (now : Int)
  | recycle (c : ConnId) (now : Int)
  deriving DecidableEq, Repr

/-- What a step reads from the clock, in order. -/
def HbAct.readings : HbAct → List Int
  | .accept _ now later => [now, later]
  | .acceptFails _ now => [now]
  | .epollWait _ => []
  | .event _ now => [now]
  | .ping _ now => [now]
  | .pass now => [now]
  | .drain => []
  | .check now => [now]
  | .recycle _ now => [now]

/-- The clock after these readings; `none` when it would go back. -/
def readClock : Int → List Int → Option Int
  | clock, [] => some clock
  | clock, now :: readings => if clock ≤ now then readClock now readings else none

/-- What a step does, at the times of `HbAct.readings`; `none` when it cannot happen or its behaviour
is undefined. -/
def HbSys.act (s : HbSys) : HbAct → Option HbSys
  | .accept fd now later => s.accept fd now later
  | .acceptFails fd now =>
    -- not yet in the timer queue
    (s.server.accept fd now).map fun (c, server) => { s with server := server.closeConn c }
  | .epollWait evs =>
    if s.batch = [] ∧ (evs.map Reg.conn).Nodup ∧ ∀ r ∈ evs, r ∈ s.server.fds then
      some { s with batch := evs }
    else none
  | .event ret now =>
    match s.batch with
    | [] => none
    | r :: rest =>
      if s.server.pool.staleEvent r.conn r.inst then some { s with batch := rest }
      else { s with batch := rest }.read r ret now
  | .ping h now => some (s.ping h now)
  | .pass now =>
    if s.phase = .idle ∧ s.timers.size > 0 ∧ now > s.timers.headTime then
      some { s with phase := .draining now }
    else none
  | .drain =>
    match s.phase with
    | .draining curTime =>
      (s.timers.getOverTimeTimer s.heartWaitTime.val curTime).map fun (r, timers) =>
        match r with
        | some h => { s with timers := timers, que := s.que ++ [h] }
        | none => { s with timers := timers, phase := .checking curTime }
    | _ => none
  | .check now =>
    match s.phase, s.que with
    | .checking curTime, h :: rest => { s with que := rest }.check h curTime now
    | .checking _, [] => some { s with phase := .idle }
    | _, _ => none
  | .recycle c now =>
    if c ∈ s.server.pool.recySet ∧ s.server.pool.recyDue c now then
      some { s with server := { s.server with pool := s.server.pool.recyConn c } }
    else none

/-- One step. -/
def HbSys.step (s : HbSys) (a : HbAct) : Option HbSys :=
  (readClock s.clock a.readings).bind fun clock => { s with clock := clock }.act a

/-- The heartbeat thread and `epoll_init` start from here. -/
def HbSys.start (recyWait : Int) (heartWait : HeartWaitTime) (nows : List Int) (clock : Int) :
    HbSys where
  server := Server.start recyWait nows
  timers := .empty
  heartWaitTime := heartWait
  batch := []
  phase := .idle
  que := []
  clock := clock
  opened := fun _ => 0
  heard := fun _ => 0
  evictions := []

/-! ## The property and its condition -/

/-- The eviction is right: the connection was open, in the occupancy its entry was made for, and had
not been heard of for more than three waiting times. -/
def Eviction.Due (w : HeartWaitTime) (e : Eviction) : Prop :=
  e.occupancy = some e.hdr.curSeq ∧ e.curTime - e.heard > w.val * 3

/-- The step takes an event of the batch. -/
def HbAct.takesEvent : HbAct → Bool
  | .event .. => true
  | _ => false

/-- The step looks at a header that was drained. -/
def HbAct.looks : HbAct → Bool
  | .check _ => true
  | _ => false

/-- A read handler runs only for a registration that is still there, and an entry that passes the
test has the number of its connection and not one 2^64 away from it. -/
def OpenOk (s : HbSys) (a : HbAct) : Prop :=
  (a.takesEvent = true → ∀ r ∈ s.batch.head?,
    s.server.pool.staleEvent r.conn r.inst = true ∨ r ∈ s.server.fds) ∧
  (a.looks = true → ∀ h ∈ s.que.head?, seqEq h.curSeq (s.server.curSeq h.pconn) = true →
    h.curSeq = s.server.curSeq h.pconn)

/-! ## What the steps do to the server -/

/-- What a step that hands out or takes back connection `c` leaves alone, and that the number of `c`
goes up unless the object is new. -/
structure Server.Moved (s s' : Server) (c : ConnId) : Prop where
  len : s.pool.pconnsQueue.length ≤ s'.pool.pconnsQueue.length
  other : ∀ d, d ≠ c → s'.pool.conn d = s.pool.conn d
  use : ∀ d, d ≠ c → (s'.InUse d ↔ s.InUse d)
  seq : c < s.pool.pconnsQueue.length → s.curSeq c < s'.curSeq c

/-- Two moves of the same connection are one. -/
theorem Server.Moved.trans {s m s' : Server} {c : ConnId} (h : s.Moved m c) (h' : m.Moved s' c) :
    s.Moved s' c where
  len := Nat.le_trans h.len h'.len
  other := fun d hd => (h'.other d hd).trans (h.other d hd)
  use := fun d hd => (h'.use d hd).trans (h.use d hd)
  seq := fun hc => Nat.lt_trans (h.seq hc) (h'.seq (Nat.lt_of_lt_of_le hc h.len))

theorem Server.Inv.lt {s : Server} (h : s.Inv) {c : ConnId} (hc : c ∈ s.pool.pconnsQueue) :
    c < s.pool.pconnsQueue.length := by
  rw [h.queue] at hc
  exact List.mem_range.mp hc

theorem Server.Inv.inUse_lt {s : Server} (h : s.Inv) {c : ConnId} (hc : s.InUse c) :
    c < s.pool.pconnsQueue.length := by
  apply h.lt
  have hone := (h.inUse hc).2.2
  have honce := h.once c
  exact List.count_pos_iff.mp (by omega)

/-- What is in the recycle set has no open descriptor. -/
theorem Server.Inv.recy_unused {s : Server} (h : s.Inv) {c : ConnId} (hc : c ∈ s.pool.recySet) :
    ¬ s.InUse c := by
  intro huse
  have hpos : 0 < s.pool.recySet.count c := List.count_pos_iff.mpr hc
  have := (h.inUse huse).2.1
  omega

/-- Everything `event_accept` does: an unused connection is handed out, its `last_ping_time` is the
time, and a descriptor is registered for it. -/
theorem Server.accept_moved {s s' : Server} {fd now : Int} {c : ConnId} (h : s.Inv)
    (hacc : s.accept fd now = some (c, s')) :
    s.Moved s' c ∧ ¬ s.InUse c ∧ (s'.pool.conn c).lastPingTime = now ∧
      ∃ r, r.conn = c ∧ s'.fds = r :: s.fds := by
  obtain ⟨p, hget, -, rfl⟩ := Server.accept_spec hacc
  have hunused := (h.getConn_unused hget).1
  have huse : ∀ d, d ≠ c → (Server.InUse ⟨p, ⟨fd, c, (p.conn c).instanceBit⟩ :: s.fds⟩ d ↔
      s.InUse d) := by
    intro d hd
    show d ∈ c :: s.fds.map Reg.conn ↔ _
    rw [List.mem_cons]
    exact ⟨fun hmem => hmem.resolve_left hd, Or.inr⟩
  have hseq : c < s.pool.pconnsQueue.length → (s.pool.conn c).curSeq < (p.conn c).curSeq := by
    intro hlt
    have := Pool.getConn_curSeq hget (Nat.ne_of_lt hlt)
    rw [if_pos rfl] at this
    omega
  have hother : ∀ d, d ≠ c → p.conn d = s.pool.conn d := fun d hd => Pool.getConn_other hget hd
  have hknown : s.pool.pconnsQueue.length ≤ p.pconnsQueue.length ∧
      (p.conn c).lastPingTime = now := by
    obtain ⟨-, rest, -, rfl⟩ | ⟨-, -, rfl⟩ := Pool.getConn_cases hget
    · refine ⟨Nat.le_refl _, ?_⟩
      show ((s.pool.setConn c _).conn c).lastPingTime = now
      rw [Pool.setConn_self]; rfl
    · refine ⟨by simp, ?_⟩
      show ((s.pool.setConn c _).conn c).lastPingTime = now
      rw [Pool.setConn_self]; rfl
  exact ⟨⟨hknown.1, hother, huse, hseq⟩, hunused, hknown.2, _, rfl, rfl⟩

/-- After the descriptor of a connection in use is closed, the others are in use as before, and it
is not. -/
theorem Server.Inv.close_use {s : Server} (h : s.Inv) {c : ConnId} (hc : s.InUse c) :
    (s.fds.map Reg.conn).Perm (c :: (closeFd s.fds (s.pool.conn c).fd).map Reg.conn) ∧
    c ∉ (closeFd s.fds (s.pool.conn c).fd).map Reg.conn := by
  obtain ⟨hcount, -, hrest⟩ := h.close hc
  constructor
  · rw [List.perm_iff_count]
    intro d
    have hd := hcount d
    rw [List.count_cons, List.count_nil] at hd
    rw [List.count_cons]
    omega
  · intro hmem
    obtain ⟨r, hr, hconn⟩ := List.mem_map.mp hmem
    exact (hrest r hr).2 hconn

/-- `insert_recy_conn_queue` of a connection in use. -/
theorem Server.insertRecy_moved {s : Server} (h : s.Inv) {c : ConnId} (hc : s.InUse c)
    (now : Int) : s.Moved (s.insertRecyConnQueue c now) c ∧
      ¬ (s.insertRecyConnQueue c now).InUse c ∧
      (s.fds.map Reg.conn).Perm (c :: (s.insertRecyConnQueue c now).fds.map Reg.conn) := by
  obtain ⟨hperm, hnot⟩ := h.close_use hc
  have hset : c ∉ s.pool.recySet := List.count_eq_zero.mp (h.inUse hc).2.1
  have hseq : ∀ d, ((s.pool.insertRecy c now).conn d).curSeq =
      (s.pool.conn d).curSeq + if d = c then 1 else 0 := by
    intro d
    simpa only [hset, not_false_eq_true, and_true] using s.pool.insertRecy_curSeq c d now
  refine ⟨⟨?_, ?_, ?_, ?_⟩, hnot, hperm⟩
  · show _ ≤ (s.pool.insertRecy c now).pconnsQueue.length
    rw [Pool.insertRecy_of_notMem hset]
    exact Nat.le_refl _
  · intro d hd
    show (s.pool.insertRecy c now).conn d = _
    rw [Pool.insertRecy_of_notMem hset]
    exact Pool.setConn_other _ _ _ hd
  · intro d hd
    show d ∈ (closeFd s.fds (s.pool.conn c).fd).map Reg.conn ↔ d ∈ s.fds.map Reg.conn
    rw [hperm.mem_iff, List.mem_cons]
    exact ⟨Or.inr, fun hmem => hmem.resolve_left hd⟩
  · intro _
    show (s.pool.conn c).curSeq < ((s.pool.insertRecy c now).conn c).curSeq
    rw [hseq, if_pos rfl]
    omega

/-- `close_conn` of a connection in use. -/
theorem Server.closeConn_moved {s : Server} (h : s.Inv) {c : ConnId} (hc : s.InUse c) :
    s.Moved (s.closeConn c) c ∧ ¬ (s.closeConn c).InUse c := by
  obtain ⟨hperm, hnot⟩ := h.close_use hc
  refine ⟨⟨Nat.le_refl _, fun d hd => Pool.freeConn_other _ hd, ?_, ?_⟩, hnot⟩
  · intro d hd
    show d ∈ (closeFd s.fds (s.pool.conn c).fd).map Reg.conn ↔ d ∈ s.fds.map Reg.conn
    rw [hperm.mem_iff, List.mem_cons]
    exact ⟨Or.inr, fun hmem => hmem.resolve_left hd⟩
  · intro _
    show (s.pool.conn c).curSeq < ((s.pool.freeConn c).conn c).curSeq
    rw [Pool.freeConn_curSeq, if_pos rfl]
    omega

/-- The recycler frees a connection. -/
theorem Server.recycle_moved (s : Server) (c : ConnId) :
    s.Moved { s with pool := s.pool.recyConn c } c := by
  refine ⟨Nat.le_refl _, fun d hd => Pool.freeConn_other _ hd, fun _ _ => Iff.rfl, fun _ => ?_⟩
  show (s.pool.conn c).curSeq < ((Pool.freeConn _ c).conn c).curSeq
  rw [Pool.freeConn_curSeq, if_pos rfl]
  exact Nat.lt_succ_self _

/-! ## The entries -/

/-- A header of the connection pool: not younger than its connection, and as old only while the
connection is in use. -/
structure Server.Honest (s : Server) (h : MsgHdr) : Prop where
  known : h.pconn < s.pool.pconnsQueue.length
  le : h.curSeq ≤ s.curSeq h.pconn
  use : h.curSeq = s.curSeq h.pconn → s.InUse h.pconn

/-- A header stays honest when its connection changes hands, and then it is old. -/
theorem Server.Honest.moved {s s' : Server} {h : MsgHdr} {c : ConnId} (hh : s.Honest h)
    (hm : s.Moved s' c) : s'.Honest h := by
  have hlen := Nat.lt_of_lt_of_le hh.known hm.len
  by_cases hc : h.pconn = c
  · have hlt : h.curSeq < s'.curSeq h.pconn := by
      apply Nat.lt_of_le_of_lt hh.le
      rw [hc]
      exact hm.seq (hc ▸ hh.known)
    exact ⟨hlen, Nat.le_of_lt hlt, fun heq => absurd heq (Nat.ne_of_lt hlt)⟩
  · have hseq : s'.curSeq h.pconn = s.curSeq h.pconn := by
      unfold Server.curSeq
      rw [hm.other _ hc]
    refine ⟨hlen, ?_, ?_⟩
    · rw [hseq]; exact hh.le
    · rw [hseq]; exact fun heq => (hm.use _ hc).mpr (hh.use heq)

/-- The pool is partitioned; the headers are honest; what the histories say of a connection in use
is what its object says, and the object has not missed a PING; the evictions were right. -/
structure HbSys.Inv (w : HeartWaitTime) (s : HbSys) : Prop where
  wait : s.heartWaitTime = w
  server : s.server.Inv
  hdrs : ∀ h ∈ s.timers.hdrs ++ s.que, s.server.Honest h
  opened : ∀ c, s.server.InUse c → s.opened c = s.server.curSeq c
  heard : ∀ c, s.server.InUse c →
    s.heard c ≤ (s.server.pool.conn c).lastPingTime ∧ s.heard c ≤ s.clock
  due : ∀ e ∈ s.evictions, e.Due w

section
variable {w : HeartWaitTime} {s : HbSys}

/-- Fewer headers, threads elsewhere, a later clock. -/
theorem HbSys.Inv.threads (h : s.Inv w) {timers : TimerQueue} {batch : List Reg} {phase : HbPhase}
    {que : List MsgHdr} {clock : Int}
    (hhdrs : ∀ x ∈ timers.hdrs ++ que, x ∈ s.timers.hdrs ++ s.que) (hclock : s.clock ≤ clock) :
    HbSys.Inv w { s with
      timers := timers
      batch := batch
      phase := phase
      que := que
      clock := clock } :=
  ⟨h.wait, h.server, fun x hx => h.hdrs x (hhdrs x hx), h.opened,
    fun c hc => ⟨(h.heard c hc).1, Int.le_trans (h.heard c hc).2 hclock⟩, h.due⟩

/-- A connection that is not in use afterwards changes hands. -/
theorem HbSys.Inv.moved (h : s.Inv w) {server : Server} {timers : TimerQueue} {c : ConnId}
    (hm : s.server.Moved server c) (hinv : server.Inv) (hunused : ¬ server.InUse c)
    (hhdrs : ∀ x ∈ timers.hdrs, x ∈ s.timers.hdrs) :
    HbSys.Inv w { s with server := server, timers := timers } := by
  have hother : ∀ d, server.InUse d → d ≠ c ∧ s.server.InUse d := by
    intro d hd
    have hne : d ≠ c := fun he => hunused (he ▸ hd)
    exact ⟨hne, (hm.use d hne).mp hd⟩
  refine ⟨h.wait, hinv, fun x hx => ?_, fun d hd => ?_, fun d hd => ?_, h.due⟩
  · apply Server.Honest.moved (h.hdrs x ?_) hm
    exact List.mem_append.mpr ((List.mem_append.mp hx).imp_left (hhdrs x))
  · obtain ⟨hne, huse⟩ := hother d hd
    show s.opened d = (server.pool.conn d).curSeq
    rw [hm.other d hne]
    exact h.opened d huse
  · obtain ⟨hne, huse⟩ := hother d hd
    show s.heard d ≤ (server.pool.conn d).lastPingTime ∧ s.heard d ≤ s.clock
    rw [hm.other d hne]
    exact h.heard d huse

/-- `insert_recy_conn_queue` of a connection in use. -/
theorem HbSys.Inv.insertRecy {s' : HbSys} {c : ConnId} {now : Int} (h : s.Inv w)
    (hc : s.server.InUse c) (hs : s.insertRecy c now = some s') : s'.Inv w := by
  obtain ⟨timers, hdel, rfl⟩ := Option.map_eq_some_iff.mp hs
  obtain ⟨hm, hunused, -⟩ := Server.insertRecy_moved h.server hc now
  apply h.moved hm (insertRecyConnQueue_inv h.server hc now) hunused
  intro x hx
  rw [TimerQueue.delete_hdrs hdel] at hx
  exact List.mem_of_mem_eraseP hx

/-- The client that is accepted has been heard of now, and its entry is honest. -/
theorem HbSys.Inv.accept {s' : HbSys} {fd now later : Int} (h : s.Inv w) (hnow : now ≤ s.clock)
    (hs : s.accept fd now later = some s') : s'.Inv w := by
  obtain ⟨⟨c, server⟩, hacc, hs⟩ := Option.bind_eq_some_iff.mp hs
  obtain ⟨timers, hadd, rfl⟩ := Option.map_eq_some_iff.mp hs
  obtain ⟨hm, hunused, hping, -⟩ := Server.accept_moved h.server hacc
  obtain ⟨hinv, huse⟩ := accept_inv h.server hacc
  refine ⟨h.wait, hinv, fun x hx => ?_, fun d hd => ?_, fun d hd => ?_, h.due⟩
  · rw [List.mem_append, (TimerQueue.add_hdrs hadd).mem_iff, List.mem_cons, or_assoc] at hx
    rcases hx with rfl | hx
    · exact ⟨hinv.inUse_lt huse, Nat.le_refl _, fun _ => huse⟩
    · exact (h.hdrs x (List.mem_append.mpr hx)).moved hm
  · show Function.update s.opened c (server.curSeq c) d = _
    by_cases hdc : d = c
    · subst hdc
      rw [Function.update_self]
    · rw [Function.update_of_ne hdc, h.opened d ((hm.use d hdc).mp hd)]
      show (s.server.pool.conn d).curSeq = (server.pool.conn d).curSeq
      rw [hm.other d hdc]
  · show Function.update s.heard c now d ≤ _ ∧ Function.update s.heard c now d ≤ s.clock
    by_cases hdc : d = c
    · subst hdc
      rw [Function.update_self]
      exact ⟨Int.le_of_eq hping.symm, hnow⟩
    · rw [Function.update_of_ne hdc]
      show s.heard d ≤ (server.pool.conn d).lastPingTime ∧ _
      rw [hm.other d hdc]
      exact h.heard d ((hm.use d hdc).mp hd)

/-- A PING moves `last_ping_time` to now, whoever sent it. -/
theorem HbSys.Inv.ping (h : s.Inv w) (hdr : MsgHdr) {now : Int} (hnow : now = s.clock) :
    (s.ping hdr now).Inv w := by
  have hconn : ∀ d, (s.server.pool.setConn hdr.pconn
      { s.server.pool.conn hdr.pconn with lastPingTime := now }).conn d =
      { s.server.pool.conn d with lastPingTime :=
        if d = hdr.pconn then now else (s.server.pool.conn d).lastPingTime } := by
    intro d
    by_cases hd : d = hdr.pconn
    · rw [hd, Pool.setConn_self, if_pos rfl]
    · rw [Pool.setConn_other _ _ _ hd, if_neg hd]
  have hseq : ∀ d, (s.ping hdr now).server.curSeq d = s.server.curSeq d := by
    intro d
    show ((s.server.pool.setConn _ _).conn d).curSeq = _
    rw [hconn]
    rfl
  have hinv := h.server
  refine ⟨h.wait, ⟨hinv.queue, hinv.once, hinv.total, hinv.free, hinv.recy, hinv.fds, ?_⟩,
    fun x hx => ?_, fun d hd => ?_, fun d hd => ?_, h.due⟩
  · intro r hr
    show ((s.server.pool.setConn _ _).conn r.conn).fd = r.fd
    rw [hconn]
    exact hinv.own r hr
  · obtain ⟨hknown, hle, huse⟩ := h.hdrs x hx
    exact ⟨hknown, by rw [hseq]; exact hle, by rw [hseq]; exact huse⟩
  · rw [hseq]
    exact h.opened d hd
  · obtain ⟨hping, hclock⟩ := h.heard d hd
    have hheard : (s.ping hdr now).heard d = s.heard d ∨
        d = hdr.pconn ∧ (s.ping hdr now).heard d = now := by
      have hdef : (s.ping hdr now).heard = if s.occupancy hdr.pconn = some hdr.curSeq then
        Function.update s.heard hdr.pconn now else s.heard := rfl
      rw [hdef]
      split
      · by_cases hd : d = hdr.pconn
        · subst hd
          exact .inr ⟨rfl, Function.update_self ..⟩
        · exact .inl (Function.update_of_ne hd ..)
      · exact .inl rfl
    have hlast : ((s.ping hdr now).server.pool.conn d).lastPingTime =
        if d = hdr.pconn then now else (s.server.pool.conn d).lastPingTime := by
      show ((s.server.pool.setConn _ _).conn d).lastPingTime = _
      rw [hconn]
    show (s.ping hdr now).heard d ≤ _ ∧ (s.ping hdr now).heard d ≤ s.clock
    rw [hlast]
    rcases hheard with heq | ⟨rfl, heq⟩
    · -- its own history stands still: `now` is not earlier than anything noted
      rw [heq]
      refine ⟨?_, hclock⟩
      split
      · omega
      · exact hping
    · rw [heq, if_pos rfl]
      exact ⟨Int.le_refl _, Int.le_of_eq hnow⟩

/-- The read handler of a registration that is there. -/
theorem HbSys.Inv.read {s' : HbSys} {r : Reg} {ret : RecvRet} {now : Int} (h : s.Inv w)
    (hr : r ∈ s.server.fds) (hs : s.read r ret now = some s') : s'.Inv w := by
  have huse : s.server.InUse r.conn := List.mem_map_of_mem hr
  obtain ⟨-, hs⟩ := Option.ite_none_right_eq_some.mp hs
  split at hs
  · cases hs
    exact h
  · exact h.insertRecy huse hs
  · cases hs
    obtain ⟨hm, hunused⟩ := Server.closeConn_moved h.server huse
    exact h.moved hm (closeConn_inv h.server huse) hunused fun x hx => hx

/-- Taking the next header off `que`. -/
theorem HbSys.Inv.pop {hdr : MsgHdr} {rest : List MsgHdr} (h : s.Inv w)
    (hque : s.que = hdr :: rest) : HbSys.Inv w { s with que := rest } ∧ s.server.Honest hdr := by
  constructor
  · apply h.threads (fun x hx => ?_) (Int.le_refl _)
    rw [List.mem_append] at hx ⊢
    exact hx.imp_right fun hx => by rw [hque]; exact List.mem_cons_of_mem _ hx
  · apply h.hdrs
    rw [hque]
    exact List.mem_append_right _ (List.mem_cons_self ..)

/-- A check changes nothing, or evicts the connection: it is in use, in the occupancy of the entry,
and its `last_ping_time` is no earlier than what was heard. -/
theorem HbSys.Inv.check_cases {s' : HbSys} {hdr : MsgHdr} {curTime now : Int} (h : s.Inv w)
    (hhdr : s.server.Honest hdr)
    (hok : seqEq hdr.curSeq (s.server.curSeq hdr.pconn) = true →
      hdr.curSeq = s.server.curSeq hdr.pconn)
    (hs : s.check hdr curTime now = some s') :
    s' = s ∨ (s.record hdr curTime).Inv w ∧ s.server.InUse hdr.pconn ∧
      (s.record hdr curTime).insertRecy hdr.pconn now = some s' := by
  unfold HbSys.check at hs
  split at hs
  case isFalse => exact .inl (Option.some.inj hs).symm
  case isTrue hseq =>
  have huse := hhdr.use (hok hseq)
  obtain ⟨limit, hlimit, hs⟩ := Option.bind_eq_some_iff.mp hs
  split at hs
  case isFalse => exact .inl (Option.some.inj hs).symm
  case isTrue hlate =>
  have hthrice : limit = w.val * 3 := by
    rw [h.wait] at hlimit
    exact (Option.some.inj (Option.ite_none_right_eq_some.mp hlimit).2).symm
  have hdue : Eviction.Due w ⟨hdr, s.occupancy hdr.pconn, s.heard hdr.pconn, curTime⟩ := by
    constructor
    · show s.occupancy hdr.pconn = some hdr.curSeq
      rw [HbSys.occupancy, if_pos huse, h.opened _ huse, ← hok hseq]
    · show curTime - s.heard hdr.pconn > w.val * 3
      have := (h.heard _ huse).1
      omega
  have hrecord : (s.record hdr curTime).Inv w := by
    refine ⟨h.wait, h.server, h.hdrs, h.opened, h.heard, fun e he => ?_⟩
    rcases List.mem_append.mp he with he | he
    · exact h.due e he
    · rw [List.mem_singleton.mp he]
      exact hdue
  exact .inr ⟨hrecord, huse, hs⟩

/-- `event_accept` whose registration fails closes the connection at once. -/
theorem HbSys.Inv.acceptFails {s' : HbSys} {fd now : Int} (h : s.Inv w)
    (hs : s.act (.acceptFails fd now) = some s') : s'.Inv w := by
  obtain ⟨⟨c, server⟩, hacc, rfl⟩ := Option.map_eq_some_iff.mp hs
  obtain ⟨hm, -, -, -⟩ := Server.accept_moved h.server hacc
  obtain ⟨hinv, huse⟩ := accept_inv h.server hacc
  obtain ⟨hm', hunused⟩ := Server.closeConn_moved hinv huse
  exact h.moved (hm.trans hm') (closeConn_inv hinv huse) hunused fun x hx => hx

/-- The next event of the batch: skipped, or the read handler runs for an open registration. -/
theorem HbSys.Inv.event {s' : HbSys} {ret : RecvRet} {now : Int} (h : s.Inv w)
    (hok : OpenOk s (.event ret now)) (hs : s.act (.event ret now) = some s') : s'.Inv w := by
  simp only [HbSys.act] at hs
  split at hs
  · cases hs
  next r rest hbatch =>
  have h' : HbSys.Inv w { s with batch := rest } := h.threads (fun x hx => hx) (Int.le_refl _)
  split at hs
  · cases hs
    exact h'
  next hstale =>
  have hr : r ∈ s.server.fds := (hok.1 rfl r (by rw [hbatch]; rfl)).resolve_left hstale
  exact h'.read hr hs

/-- A header that has been due comes off the queue, and stands in it again. -/
theorem HbSys.Inv.drain {s' : HbSys} (h : s.Inv w) (hs : s.act .drain = some s') : s'.Inv w := by
  simp only [HbSys.act] at hs
  split at hs
  case h_2 => cases hs
  obtain ⟨⟨r, timers⟩, hget, hs⟩ := Option.map_eq_some_iff.mp hs
  obtain ⟨hperm, hmem⟩ := TimerQueue.getOverTimeTimer_hdrs hget
  cases r with
  | none =>
    cases hs
    apply h.threads (fun x hx => ?_) (Int.le_refl _)
    exact List.mem_append.mpr ((List.mem_append.mp hx).imp_left hperm.mem_iff.mp)
  | some hdr =>
    cases hs
    apply h.threads (fun x hx => ?_) (Int.le_refl _)
    simp only [List.mem_append, List.mem_singleton, hperm.mem_iff] at hx ⊢
    rcases hx with hx | hx | rfl
    · exact .inl hx
    · exact .inr hx
    · exact .inl (hmem _ rfl)

/-- The next header is looked at. -/
theorem HbSys.Inv.check {s' : HbSys} {now : Int} (h : s.Inv w) (hok : OpenOk s (.check now))
    (hs : s.act (.check now) = some s') : s'.Inv w := by
  simp only [HbSys.act] at hs
  split at hs
  case h_1 curTime hdr rest hphase hque =>
    obtain ⟨h', hhdr⟩ := h.pop hque
    have hseq := hok.2 rfl hdr (by rw [hque]; rfl)
    obtain rfl | ⟨hrecord, huse, hs⟩ := h'.check_cases hhdr hseq hs
    · exact h'
    · exact hrecord.insertRecy huse hs
  case h_2 =>
    cases hs
    exact h.threads (fun x hx => hx) (Int.le_refl _)
  case h_3 => cases hs

end

/-! ## Runs -/

/-- The clock does not go back. -/
theorem readClock_le {readings : List Int} : ∀ {clock clock' : Int},
    readClock clock readings = some clock' →
      clock ≤ clock' ∧ ∀ now ∈ readings, now ≤ clock' := by
  induction readings with
  | nil =>
    intro clock clock' h
    cases h
    exact ⟨Int.le_refl _, fun _ hnow => nomatch hnow⟩
  | cons now readings ih =>
    intro clock clock' h
    obtain ⟨hle, h⟩ := Option.ite_none_right_eq_some.mp h
    obtain ⟨hnow, hrest⟩ := ih h
    refine ⟨Int.le_trans hle hnow, fun x hx => ?_⟩
    rcases List.mem_cons.mp hx with rfl | hx
    · exact hnow
    · exact hrest x hx

/-- Every step that meets the condition keeps the invariant. -/
theorem HbSys.step_inv {w : HeartWaitTime} (s : HbSys) (a : HbAct) (s' : HbSys) (h : s.Inv w)
    (hok : OpenOk s a) (hs : s.step a = some s') : s'.Inv w := by
  obtain ⟨clock, hclock, hs⟩ := Option.bind_eq_some_iff.mp hs
  obtain ⟨hle, hnow⟩ := readClock_le hclock
  have h : HbSys.Inv w { s with clock := clock } := h.threads (fun x hx => hx) hle
  cases a with
  | accept fd now later => exact h.accept (hnow now (List.mem_cons_self ..)) hs
  | acceptFails fd now => exact h.acceptFails hs
  | epollWait evs =>
    obtain ⟨-, hs⟩ := Option.ite_none_right_eq_some.mp hs
    cases hs
    exact h.threads (fun x hx => hx) (Int.le_refl _)
  | event ret now => exact h.event hok hs
  | ping hdr now =>
    obtain ⟨-, hclock⟩ := Option.ite_none_right_eq_some.mp hclock
    cases hs
    exact h.ping hdr (Option.some.inj hclock)
  | pass now =>
    obtain ⟨-, hs⟩ := Option.ite_none_right_eq_some.mp hs
    cases hs
    exact h.threads (fun x hx => hx) (Int.le_refl _)
  | drain => exact h.drain hs
  | check now => exact h.check hok hs
  | recycle c now =>
    obtain ⟨hc, hs⟩ := Option.ite_none_right_eq_some.mp hs
    cases hs
    exact h.moved (Server.recycle_moved _ c) (recyConn_inv h.server hc.1)
      (h.server.recy_unused hc.1) fun x hx => hx

theorem HbSys.start_inv (recyWait : Int) (w : HeartWaitTime) (nows : List Int) (clock : Int) :
    (HbSys.start recyWait w nows clock).Inv w :=
  ⟨rfl, Mgx.start_inv recyWait nows, fun _ hx => (nomatch hx), fun _ hc => (nomatch hc),
    fun _ hc => (nomatch hc), fun _ he => (nomatch he)⟩

/-- **An eviction is never premature.** In a run in which read handlers run only for registrations
that are there and no sequence number comes round while an entry waits, the heartbeat thread calls
`insert_recy_conn_queue` only for a connection that is open in the occupancy the entry was made for
and whose last PING, or whose accept, lies more than three waiting times before the pass. -/
theorem eviction_not_premature (recyWait : Int) (w : HeartWaitTime) (nows : List Int)
    (clock : Int) (acts : List HbAct) (s : HbSys)
    (hrun : run HbSys.step (HbSys.start recyWait w nows clock) acts = some s)
    (hok : Meets HbSys.step OpenOk (HbSys.start recyWait w nows clock) acts) :
    ∀ e ∈ s.evictions, e.Due w :=
  (run_invariant HbSys.step_inv acts _ s (HbSys.start_inv recyWait w nows clock) hok hrun).due

instance (s : HbSys) (a : HbAct) : Decidable (OpenOk s a) :=
  inferInstanceAs (Decidable ((a.takesEvent = true → ∀ r ∈ s.batch.head?, _ ∨ _) ∧
    (a.looks = true → ∀ h ∈ s.que.head?, _ → _)))

/-- The shortest waiting time. -/
def fiveSeconds : HeartWaitTime := ⟨5, by decide, by decide⟩

/-- Of two clients the one that sends no PING is evicted; its object is recycled and serves a third
client. -/
def silentClient : List HbAct :=
  [.accept 5 0 0, .accept 6 1 1, .ping ⟨1, 2⟩ 12, .pass 16, .drain, .drain, .drain, .check 16,
    .check 17, .check 17, .recycle 0 96, .accept 5 97 97]

theorem eviction_not_premature_silentClient : ∃ s,
    run HbSys.step (HbSys.start 80 fiveSeconds [0, 0] 0) silentClient = some s ∧
    s.evictions = [⟨⟨0, 2⟩, some 2, 0, 16⟩] ∧ ∀ e ∈ s.evictions, e.Due fiveSeconds :=
  ⟨_, rfl, rfl, eviction_not_premature 80 fiveSeconds [0, 0] 0 silentClient _ rfl
    (by decide)⟩

/-- A client is evicted while an event of it is in the batch, so that its handler gets `EBADF` and
frees the connection, which is still in the recycle set. It serves a second client, who shuts down
after its entry has been drained: the shutdown finds the connection in the set and leaves its number
alone. -/
def closedWhileRecycled : List HbAct :=
  [.accept 5 0 0, .epollWait [⟨5, 0, true⟩], .pass 16, .drain, .drain, .check 16,
    .event (.fail .other) 16, .accept 5 17 17, .check 17, .pass 33, .drain, .drain,
    .epollWait [⟨5, 0, false⟩], .event (.got []) 33, .check 33]

/-- The entry passes the test, and the heartbeat thread closes a connection that is closed. -/
theorem eviction_of_closed : ∃ s,
    run HbSys.step (HbSys.start 80 fiveSeconds [0] 0) closedWhileRecycled = some s ∧
    ⟨⟨0, 5⟩, none, 17, 33⟩ ∈ s.evictions ∧ ¬ ∀ e ∈ s.evictions, e.Due fiveSeconds := by
  refine ⟨_, rfl, by decide, fun h => ?_⟩
  have hdue := h ⟨⟨0, 5⟩, none, 17, 33⟩ (by decide)
  exact absurd hdue.1 (by decide)

end Mgx
