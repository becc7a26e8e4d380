import Mgx.Lib.Slots
import Mgx.ConnPool
import Mgx.Send

/-
  The send queue.

  The send thread waits on a semaphore and walks `m_send_list`, one element under
  the mutex at a time, while business threads push messages, the epoll thread
  completes partial sends, and connections come and go. A step of the machine is
  one turn of the walk, one call of `send_msg` or `send_msg_handler`, or one step
  of the server. So no release and no hand-out of a connection falls into a turn of
  the walk; `Mgx.SendThreads` takes the turn apart. The counter and the semaphore
  have no bound (`Mgx.Comm`).

  Correspondence (C++ ↔ Lean):
    `send_msg`                                       ↔ `SendSys.sendMsg`
    `sem_wait` and the test of `m_send_list_cnt`     ↔ `SendSys.wake`
    the body of `while (it != m_send_list.end())`    ↔ `SendSys.sendLoop`, with `dropStale`,
      (`send_msg_th_func`, net/mgx_socket.cpp)          `skipBusy`, `sendOne` for its branches
    `it`                                             ↔ `Iter`
    `send_msg_handler`                               ↔ `SendSys.writable`
    `delete[]` of a message buffer                   ↔ `SendSys.deleted`
    `pmsg_hdr->cur_seq = c->m_cur_seq`               ↔ `SendSys.capture`

  A buffer is named by the number of the `send_msg` call that got it. The walk
  erases only the element it is at and new elements come at the end, so `it` is
  kept as an index; `end()` stays `end()` when an element is pushed. A run stops
  where the behaviour is undefined: a use of a deleted buffer, or of `end()`.

  What is proved: `send_queue_ownership`. While the walk meets no message whose
  connection has moved on, every buffer has exactly one owner. `stale_drop_breaks`:
  the first such message breaks it, since the loop erases the element and then
  deletes what the iterator points to next.
-/
namespace Mgx
open Runs

/-- Where the send thread is: waiting for the semaphore, at an element of the list, or at
`end()`. -/
inductive Iter where
  | idle
  | elem (i : Nat)
  | past
  deriving DecidableEq, Repr

/-- The iterator at position `i` of a list of length `n`. -/
def iterAt (i n : Nat) : Iter := if i < n then .elem i else .past

/-- The server and its send queue. `given`, `deleted` and `started` are histories: the messages
given to `send_msg`, the buffers passed to `delete[]`, and the messages whose transmission was
started. `captured` are the message headers filled in so far. -/
structure SendSys (b : Build) where
  server : Server
  sendList : List Addr
  sendListCnt : Int
  sendQueueSem : Nat
  it : Iter
  captured : List MsgHdr
  given : List (SendBuf b)
  deleted : List Addr
  started : List Addr
  undef : Bool

variable {b : Build}

def Server.setConn (s : Server) (c : ConnId) (x : Conn) : Server :=
  { s with pool := s.pool.setConn c x }

/-- `mgx_conn_t` at an address. -/
def SendSys.conn (s : SendSys b) (c : ConnId) : Conn := s.server.pool.conn c

/-- The message buffers a step of the server deletes: those of `put_one_to_free`. -/
def Server.deletes (s : Server) : ServerAct → List Addr
  | .accept .. => []
  | .acceptFails .. => []
  | .readable r ret _ =>
    if s.pool.staleEvent r.conn r.inst then []
    else if (recvProcess ret).2 = some .immediate then (s.pool.conn r.conn).putOneToFreeDeletes
    else []
  | .recycle c _ => (s.pool.conn c).putOneToFreeDeletes

/-- A message header is filled in for connection `c`. -/
def SendSys.capture (s : SendSys b) (c : ConnId) : SendSys b :=
  { s with captured := ⟨c, (s.conn c).curSeq⟩ :: s.captured }

/-- `send_msg`. -/
def SendSys.sendMsg (s : SendSys b) (m : SendBuf b) : SendSys b :=
  { s with
    sendList := s.sendList ++ [s.given.length]
    sendListCnt := s.sendListCnt + 1
    sendQueueSem := s.sendQueueSem + 1
    given := s.given ++ [m] }

/-- `sem_wait`, then `it = m_send_list.begin()` when the counter is positive. -/
def SendSys.wake (s : SendSys b) : SendSys b :=
  { s with
    sendQueueSem := s.sendQueueSem - 1
    it := if s.sendListCnt > 0 then iterAt 0 s.sendList.length else .idle }

/-- `m_cur_seq` has moved on: erase the element, then delete what the iterator points to. -/
def SendSys.dropStale (s : SendSys b) (i : Nat) : SendSys b :=
  { s with
    sendListCnt := s.sendListCnt - 1
    sendList := s.sendList.eraseIdx i
    it := iterAt i (s.sendList.eraseIdx i).length
    deleted := s.deleted ++ (s.sendList.eraseIdx i)[i]?.toList
    undef := (s.sendList.eraseIdx i)[i]?.isNone }

/-- `throw_send_cnt > 0`: `it++`. -/
def SendSys.skipBusy (s : SendSys b) (i : Nat) : SendSys b :=
  { s with it := iterAt (i + 1) s.sendList.length }

/-- The message is taken off the list and its first attempt made. -/
def SendSys.sendOne (s : SendSys b) (i : Nat) (a : Addr) (m : SendBuf b) (rs : List SendRet) :
    Option (SendSys b) :=
  (sendFirst b a m.body (s.conn m.hdr.pconn) rs).map fun out =>
    { s with
      server := s.server.setConn m.hdr.pconn out.conn
      sendList := s.sendList.eraseIdx i
      sendListCnt := s.sendListCnt - 1
      it := iterAt i (s.sendList.eraseIdx i).length
      deleted := s.deleted ++ out.deleted
      started := s.started ++ [a] }

/-- One turn of the loop; `rs` is what `send` answers. -/
def SendSys.sendLoop (s : SendSys b) (rs : List SendRet) : Option (SendSys b) :=
  match s.it with
  | .idle => none
  | .past => some { s with it := .idle }
  | .elem i =>
    match s.sendList[i]? with
    | none => none
    | some a =>
      match s.given[a]? with
      | none => none
      | some m =>
        if a ∈ s.deleted then some { s with undef := true }
        else if !seqEq (s.conn m.hdr.pconn).curSeq m.hdr.curSeq then some (s.dropStale i)
        else if (s.conn m.hdr.pconn).throwSendCnt > 0 then some (s.skipBusy i)
        else s.sendOne i a m rs

/-- `send_msg_handler`. -/
def SendSys.writable (s : SendSys b) (c : ConnId) (rs : List SendRet) : Option (SendSys b) :=
  if ∃ a ∈ (s.conn c).psendMemAddr, a ∈ s.deleted then some { s with undef := true }
  else (sendMsgHandler (s.conn c) rs).map fun out =>
    { s with
      server := s.server.setConn c out.conn
      sendQueueSem := s.sendQueueSem + if out.posted then 1 else 0
      deleted := s.deleted ++ out.deleted }

/-- What can happen. -/
inductive SendAct (b : Build) where
  | server (a : ServerAct)
  | capture (c : ConnId)
  | sendMsg (m : SendBuf b)
  | wake
  | sendLoop (rs : List SendRet)
  | writable (c : ConnId) (rs : List SendRet)

/-- One step. A header is captured for a connection in use, and a message is given to `send_msg`
under a header captured before. -/
def SendSys.step (s : SendSys b) (act : SendAct b) : Option (SendSys b) :=
  if s.undef then none
  else match act with
    | .server a => (s.server.step a).map fun server =>
        { s with server := server, deleted := s.deleted ++ s.server.deletes a }
    | .capture c => if c ∈ s.server.fds.map Reg.conn then some (s.capture c) else none
    | .sendMsg m => if m.hdr ∈ s.captured then some (s.sendMsg m) else none
    | .wake => if s.it = .idle ∧ 0 < s.sendQueueSem then some s.wake else none
    | .sendLoop rs => s.sendLoop rs
    | .writable c rs => if c ∈ s.server.pool.pconnsQueue then s.writable c rs else none

def SendSys.start (b : Build) (wait : Int) (nows : List Int) : SendSys b where
  server := Server.start wait nows
  sendList := []
  sendListCnt := 0
  sendQueueSem := 0
  it := .idle
  captured := []
  given := []
  deleted := []
  started := []
  undef := false

/-! ## Ownership -/

/-- The buffers that `psend_mem_addr` of the connections point to. -/
def Server.held (s : Server) : List Addr :=
  Slots.held s.pool.pconnsQueue fun c => (s.pool.conn c).psendMemAddr

/-- Every buffer given to `send_msg` is once, and in one place only, in the list, held by a
connection, or deleted; there are no others; the counter counts; no use of a deleted buffer and
none of `end()` has been made. -/
structure SendSys.Owned (s : SendSys b) : Prop where
  once : ∀ a : Nat, s.sendList.count a + s.server.held.count a + s.deleted.count a =
    if a < s.given.length then 1 else 0
  cnt : s.sendListCnt = s.sendList.length
  defined : s.undef = false

/-- The message `it` points to. -/
def SendSys.visited (s : SendSys b) : Option (SendBuf b) :=
  match s.it with
  | .elem i => s.sendList[i]?.bind (s.given[·]?)
  | _ => none

/-- What `send` answers in a turn of the loop. -/
def SendAct.turn : SendAct b → Option (List SendRet)
  | .sendLoop rs => some rs
  | _ => none

/-- The message the send thread visits belongs to the current occupancy of its connection, and its
connection, unless it is busy, holds no buffer. -/
def VisitOk (s : SendSys b) (act : SendAct b) : Prop :=
  act.turn ≠ none → ∀ m ∈ s.visited, (s.conn m.hdr.pconn).curSeq = m.hdr.curSeq ∧
    ((s.conn m.hdr.pconn).throwSendCnt > 0 ∨ (s.conn m.hdr.pconn).psendMemAddr = none)

instance (s : SendSys b) (act : SendAct b) : Decidable (VisitOk s act) :=
  inferInstanceAs (Decidable (act.turn ≠ none → ∀ m ∈ s.visited, _))

theorem SendSys.visited_eq {s : SendSys b} {i a : Nat} {m : SendBuf b} (hit : s.it = .elem i)
    (ha : s.sendList[i]? = some a) (hm : s.given[a]? = some m) : m ∈ s.visited := by
  show s.visited = some m
  simp only [SendSys.visited, hit, ha, Option.bind_some, hm]

/-! ## What a step of the server does to the buffers -/

/-- A step whose subject is connection `c`: no other connection object changes, and the sequence
number of `c` goes up. Its buffer pointer was null and stays so (`c` is handed out), is kept (`c`
goes to the recycle set), or is deleted (`c` is freed). -/
structure Moves (s s' : Server) (dels : List Addr) (c : ConnId) : Prop where
  other : ∀ d, d ≠ c → s'.pool.conn d = s.pool.conn d
  inUse : ∀ d, d ≠ c → s.InUse d → s'.InUse d
  seq : c ∈ s.pool.pconnsQueue → (s.pool.conn c).curSeq < (s'.pool.conn c).curSeq
  queue : s'.pool.pconnsQueue = s.pool.pconnsQueue ∧ c ∈ s.pool.pconnsQueue ∨
    s'.pool.pconnsQueue = s.pool.pconnsQueue ++ [c] ∧ c ∉ s.pool.pconnsQueue
  free : ∀ d ∈ s'.pool.freeQueue, d ∈ s.pool.freeQueue ∨ d = c
  buf : ((c ∈ s.pool.freeQueue ∨ c ∉ s.pool.pconnsQueue) ∧
      (s'.pool.conn c).psendMemAddr = none ∧ dels = []) ∨
    (c ∉ s'.pool.freeQueue ∧ c ∈ s.pool.pconnsQueue ∧
      (s'.pool.conn c).psendMemAddr = (s.pool.conn c).psendMemAddr ∧ dels = []) ∨
    (c ∈ s.pool.pconnsQueue ∧ (s'.pool.conn c).psendMemAddr = none ∧
      dels = (s.pool.conn c).psendMemAddr.toList)

theorem accept_moves {s s' : Server} {fd now : Int} {c : ConnId} (h : s.Inv)
    (hs : s.accept fd now = some (c, s')) :
    Moves s s' [] c ∧ (c ∈ s.pool.freeQueue ∨ c ∉ s.pool.pconnsQueue) ∧
      (s'.pool.conn c).psendMemAddr = none := by
  obtain ⟨p, hget, -, rfl⟩ := Server.accept_spec hs
  have hother : ∀ d, d ≠ c → p.conn d = s.pool.conn d := fun d hd => Pool.getConn_other hget hd
  have huse : ∀ d, d ≠ c → s.InUse d →
      d ∈ ((⟨fd, c, (p.conn c).instanceBit⟩ : Reg) :: s.fds).map Reg.conn :=
    fun d _ hd => List.mem_cons_of_mem _ hd
  obtain ⟨-, rest, hq, rfl⟩ | ⟨-, hc, rfl⟩ := Pool.getConn_cases hget
  · have hfree : c ∈ s.pool.freeQueue := by rw [hq]; exact List.mem_cons_self ..
    have hpool : c ∈ s.pool.pconnsQueue := by
      have honce := h.once c
      rw [hq, List.count_cons_self] at honce
      exact List.count_pos_iff.mp (by omega)
    have hnone : ((s.pool.setConn c ((s.pool.conn c).occupy fd now).flipInstance).conn
        c).psendMemAddr = none := by rw [Pool.setConn_self]; rfl
    refine ⟨⟨hother, huse, fun _ => ?_, .inl ⟨rfl, hpool⟩, fun d hd => .inl ?_,
      .inl ⟨.inl hfree, hnone, rfl⟩⟩, .inl hfree, hnone⟩
    · show _ < ((s.pool.setConn c _).conn c).curSeq
      rw [Pool.setConn_self]
      exact Nat.lt_succ_self _
    · rw [hq]
      exact List.mem_cons_of_mem _ hd
  · have hnew : c ∉ s.pool.pconnsQueue := by
      rw [hc]
      exact List.count_eq_zero.mp h.fresh
    have hnone : ((s.pool.setConn c (Conn.new.occupy fd now)).conn c).psendMemAddr = none := by
      rw [Pool.setConn_self]; rfl
    exact ⟨⟨hother, huse, fun hin => absurd hin hnew, .inr ⟨rfl, hnew⟩, fun d hd => .inl hd,
      .inl ⟨.inr hnew, hnone, rfl⟩⟩, .inr hnew, hnone⟩

/-- What is in use is in the pool, and not free. -/
theorem Server.Inv.inUse_pool {s : Server} (h : s.Inv) {c : ConnId} (hc : s.InUse c) :
    c ∈ s.pool.pconnsQueue ∧ c ∉ s.pool.freeQueue := by
  have huse := h.inUse hc
  have honce := h.once c
  exact ⟨List.count_pos_iff.mp (by omega), List.count_eq_zero.mp huse.1⟩

/-- Closing connection `c` leaves the others in use. -/
theorem Server.Inv.close_inUse {s : Server} (h : s.Inv) {c d : ConnId} (hc : s.InUse c)
    (hd : d ≠ c) (huse : s.InUse d) : d ∈ (closeFd s.fds (s.pool.conn c).fd).map Reg.conn := by
  have hcount := (h.close hc).1 d
  have hpos : 0 < (s.fds.map Reg.conn).count d := List.count_pos_iff.mpr huse
  have hzero : [c].count d = 0 := List.count_eq_zero.mpr fun hm => hd (List.mem_singleton.mp hm)
  exact List.count_pos_iff.mp (by omega)

theorem freeConn_moves {s : Server} {t : List Reg} {c : ConnId} (hc : c ∈ s.pool.pconnsQueue)
    (huse : ∀ d, d ≠ c → s.InUse d → d ∈ t.map Reg.conn) :
    Moves s ⟨s.pool.freeConn c, t⟩ (s.pool.conn c).putOneToFreeDeletes c := by
  have hself : (s.pool.freeConn c).conn c = (s.pool.conn c).putOneToFree := Pool.setConn_self ..
  refine ⟨fun d hd => Pool.freeConn_other _ hd, huse, fun _ => ?_, .inl ⟨rfl, hc⟩, fun d hd => ?_,
    .inr (.inr ⟨hc, by rw [hself]; rfl, rfl⟩)⟩
  · show (s.pool.conn c).curSeq < ((s.pool.freeConn c).conn c).curSeq
    rw [hself]
    exact Nat.lt_succ_self _
  · rcases List.mem_append.mp hd with hd | hd
    · exact .inl hd
    · exact .inr (List.mem_singleton.mp hd)

theorem insertRecy_moves {s : Server} {c : ConnId} (h : s.Inv) (hc : s.InUse c) (now : Int) :
    Moves s (s.insertRecyConnQueue c now) [] c := by
  obtain ⟨hpool, hfree⟩ := h.inUse_pool hc
  have hnot : c ∉ s.pool.recySet := List.count_eq_zero.mp (h.inUse hc).2.1
  have heq := Pool.insertRecy_of_notMem hnot now
  have hself : (s.pool.insertRecy c now).conn c = (s.pool.conn c).retire now := by
    rw [heq]; exact Pool.setConn_self ..
  have hfreeQ : (s.pool.insertRecy c now).freeQueue = s.pool.freeQueue := by rw [heq]; rfl
  refine ⟨fun d hd => ?_, fun d hd huse => h.close_inUse hc hd huse, fun _ => ?_, .inl ⟨?_, hpool⟩,
    fun d hd => .inl ?_, .inr (.inl ⟨?_, hpool, ?_, rfl⟩)⟩
  · show (s.pool.insertRecy c now).conn d = _
    rw [heq]
    exact Pool.setConn_other _ _ _ hd
  · show _ < ((s.pool.insertRecy c now).conn c).curSeq
    rw [hself]
    exact Nat.lt_succ_self _
  · show (s.pool.insertRecy c now).pconnsQueue = _
    rw [heq]; rfl
  · rw [← hfreeQ]; exact hd
  · show c ∉ (s.pool.insertRecy c now).freeQueue
    rw [hfreeQ]
    exact hfree
  · show ((s.pool.insertRecy c now).conn c).psendMemAddr = _
    rw [hself]; rfl

/-- Every step of the server does nothing, or has one connection for its subject. -/
theorem Server.step_moves {s s' : Server} {a : ServerAct} (h : s.Inv) (hs : s.step a = some s') :
    (s' = s ∧ s.deletes a = []) ∨ ∃ c, Moves s s' (s.deletes a) c := by
  cases a with
  | accept fd now =>
    simp only [Server.step, Option.map_eq_some_iff] at hs
    obtain ⟨⟨c, s₁⟩, hacc, rfl⟩ := hs
    exact .inr ⟨c, (accept_moves h hacc).1⟩
  | acceptFails fd now =>
    simp only [Server.step, Option.map_eq_some_iff] at hs
    obtain ⟨⟨c, s₁⟩, hacc, rfl⟩ := hs
    obtain ⟨h₁, hwas, hnone⟩ := accept_moves h hacc
    obtain ⟨hinv, huse⟩ := accept_inv h hacc
    have h₂ : Moves s₁ (s₁.closeConn c) _ c :=
      freeConn_moves (hinv.inUse_pool huse).1 fun d hd hu => hinv.close_inUse huse hd hu
    refine .inr ⟨c, fun d hd => (h₂.other d hd).trans (h₁.other d hd),
      fun d hd hu => h₂.inUse d hd (h₁.inUse d hd hu), fun hin => ?_, h₁.queue, fun d hd => ?_,
      .inl ⟨hwas, ?_, rfl⟩⟩
    · exact Nat.lt_trans (h₁.seq hin) (h₂.seq (hinv.inUse_pool huse).1)
    · rcases h₂.free d hd with hd | hd
      · exact h₁.free d hd
      · exact .inr hd
    · show ((s₁.pool.freeConn c).conn c).psendMemAddr = none
      exact congrArg Conn.psendMemAddr (Pool.setConn_self ..)
  | readable r ret now =>
    simp only [Server.step, Option.ite_none_right_eq_some, Option.some.injEq] at hs
    obtain ⟨hr, rfl⟩ := hs
    have huse : s.InUse r.conn := List.mem_map_of_mem hr
    by_cases hstale : s.pool.staleEvent r.conn r.inst = true
    · left
      simp only [Server.readEvent, Server.deletes, hstale, if_true, and_self]
    · simp only [Server.readEvent, Server.deletes, hstale, if_false, Bool.false_eq_true]
      cases hrel : (recvProcess ret).2 with
      | none => exact .inl ⟨rfl, rfl⟩
      | some rel =>
        cases rel with
        | delayed => exact .inr ⟨r.conn, insertRecy_moves h huse now⟩
        | immediate =>
          exact .inr ⟨r.conn, freeConn_moves (h.inUse_pool huse).1
            fun d hd hu => h.close_inUse huse hd hu⟩
  | recycle c now =>
    simp only [Server.step, Option.ite_none_right_eq_some, Option.some.injEq] at hs
    obtain ⟨⟨hc, -⟩, rfl⟩ := hs
    have hpool : c ∈ s.pool.pconnsQueue := by
      have hpos : 0 < s.pool.recySet.count c := List.count_pos_iff.mpr hc
      have honce := h.once c
      exact List.count_pos_iff.mp (by omega)
    refine .inr ⟨c, ?_⟩
    -- taking `c` out of the recycle set changes no connection
    have hmoves := freeConn_moves (s := ⟨{ s.pool with
        recySet := s.pool.recySet.erase c
        totalRecyConnsCnt := s.pool.totalRecyConnsCnt - 1 }, s.fds⟩) (t := s.fds) hpool
      fun d _ hu => hu
    exact ⟨hmoves.other, hmoves.inUse, hmoves.seq, hmoves.queue, hmoves.free, hmoves.buf⟩

/-! ## What the senders do to the buffers -/

/-- The first attempt deletes the message, or leaves it with the connection. -/
theorem sendFirst_owner {a : Addr} {body : Bytes} {c : Conn} {rs : List SendRet} {out : SendOut}
    (h : sendFirst b a body c rs = some out) :
    out.conn.fd = c.fd ∧ out.conn.curSeq = c.curSeq ∧
      ((out.conn.psendMemAddr = none ∧ out.deleted = [a]) ∨
       (out.conn.psendMemAddr = some a ∧ out.deleted = [])) := by
  obtain ⟨n, -, -, -, -, ⟨-, -, hd, hc⟩ | ⟨-, -, hd, hc⟩ | ⟨-, hd, hc⟩ | ⟨-, hd, hc⟩ | ⟨-, hd, hc⟩⟩ :=
    sendFirst_cases h
  · rw [hc, hd]; exact ⟨rfl, rfl, .inl ⟨rfl, rfl⟩⟩
  · rw [hc, hd]; exact ⟨rfl, rfl, .inr ⟨rfl, rfl⟩⟩
  · rw [hc, hd]; exact ⟨rfl, rfl, .inr ⟨rfl, rfl⟩⟩
  · rw [hc, hd]; exact ⟨rfl, rfl, .inr ⟨rfl, rfl⟩⟩
  · rw [hc, hd]; exact ⟨rfl, rfl, .inl ⟨rfl, rfl⟩⟩

/-- The write handler completes the message or leaves the connection as busy as it was: `send` took
the whole rest, nothing, or failed for another reason than `EAGAIN`. -/
def completes (c : Conn) (rs : List SendRet) : Prop :=
  ∃ n, sendUninterrupt c.restSendSize rs = some n ∧ (n = c.restSendSize ∨ n = 0 ∨ n < -1)

/-- The write handler deletes the buffer it was sending, or leaves everything as it was. -/
theorem sendMsgHandler_owner {c : Conn} {rs : List SendRet} {out : SendOut}
    (h : sendMsgHandler c rs = some out) :
    out.conn.fd = c.fd ∧ out.conn.curSeq = c.curSeq ∧
      ((completes c rs ∧ out.conn.psendMemAddr = none ∧ out.deleted = c.psendMemAddr.toList) ∨
       (out.conn.throwSendCnt = c.throwSendCnt ∧ out.conn.psendMemAddr = c.psendMemAddr ∧
        out.deleted = [])) := by
  simp only [sendMsgHandler, Option.map_eq_some_iff] at h
  obtain ⟨n, hn, rfl⟩ := h
  by_cases hpos : n > 0
  · rw [if_pos hpos]
    by_cases hfull : n = c.restSendSize
    · rw [if_pos hfull]
      exact ⟨rfl, rfl, .inl ⟨⟨n, hn, .inl hfull⟩, rfl, rfl⟩⟩
    · rw [if_neg hfull]
      exact ⟨rfl, rfl, .inr ⟨rfl, rfl, rfl⟩⟩
  · rw [if_neg hpos]
    by_cases hm : n = -1
    · rw [if_pos hm]
      exact ⟨rfl, rfl, .inr ⟨rfl, rfl, rfl⟩⟩
    · rw [if_neg hm]
      exact ⟨rfl, rfl, .inl ⟨⟨n, hn, by omega⟩, rfl, rfl⟩⟩

/-- Everything one turn of the loop can do. -/
theorem SendSys.sendLoop_cases {s s' : SendSys b} {rs : List SendRet}
    (h : s.sendLoop rs = some s') :
    (s.it = .past ∧ s' = { s with it := .idle }) ∨
    ∃ i a m, s.it = .elem i ∧ s.sendList[i]? = some a ∧ s.given[a]? = some m ∧
      ((a ∈ s.deleted ∧ s' = { s with undef := true }) ∨
       (seqEq (s.conn m.hdr.pconn).curSeq m.hdr.curSeq = false ∧ s' = s.dropStale i) ∨
       (seqEq (s.conn m.hdr.pconn).curSeq m.hdr.curSeq = true ∧
          (s.conn m.hdr.pconn).throwSendCnt > 0 ∧ s' = s.skipBusy i) ∨
       (seqEq (s.conn m.hdr.pconn).curSeq m.hdr.curSeq = true ∧
          (s.conn m.hdr.pconn).throwSendCnt ≤ 0 ∧ s.sendOne i a m rs = some s')) := by
  unfold SendSys.sendLoop at h
  cases hit : s.it with
  | idle => rw [hit] at h; simp at h
  | past => rw [hit] at h; exact .inl ⟨rfl, (Option.some.inj h).symm⟩
  | elem i =>
    right
    rw [hit] at h
    cases ha : s.sendList[i]? with
    | none => simp [ha] at h
    | some a =>
      cases hm : s.given[a]? with
      | none => simp [ha, hm] at h
      | some m =>
        simp only [ha, hm] at h
        refine ⟨i, a, m, rfl, ha, hm, ?_⟩
        split at h
        · next hdel => exact .inl ⟨hdel, (Option.some.inj h).symm⟩
        · split at h
          · next hseq =>
            exact .inr (.inl ⟨by simpa using hseq, (Option.some.inj h).symm⟩)
          · next hseq =>
            have hseq : seqEq (s.conn m.hdr.pconn).curSeq m.hdr.curSeq = true := by simpa using hseq
            split at h
            · next hbusy => exact .inr (.inr (.inl ⟨hseq, hbusy, (Option.some.inj h).symm⟩))
            · next hbusy => exact .inr (.inr (.inr ⟨hseq, Int.not_lt.mp hbusy, h⟩))

/-! ## The invariant that needs no condition -/

/-- The pool is partitioned, no header is ahead of its connection, and one that is level with it
names a connection in use. -/
structure SendSys.Inv (s : SendSys b) : Prop where
  server : s.server.Inv
  bound : ∀ h ∈ s.captured, h.pconn ∈ s.server.pool.pconnsQueue ∧
    h.curSeq ≤ (s.conn h.pconn).curSeq ∧
    ((s.conn h.pconn).curSeq = h.curSeq → s.server.InUse h.pconn)
  given : ∀ m ∈ s.given, m.hdr ∈ s.captured

theorem Server.setConn_inv {s : Server} (h : s.Inv) {c : ConnId} {x : Conn}
    (hx : x.fd = (s.pool.conn c).fd) : (s.setConn c x).Inv := by
  refine ⟨h.queue, h.once, h.total, h.free, h.recy, h.fds, fun r hr => ?_⟩
  show ((s.pool.setConn c x).conn r.conn).fd = r.fd
  by_cases hc : r.conn = c
  · rw [hc, Pool.setConn_self, hx, ← hc]
    exact h.own r hr
  · rw [Pool.setConn_other _ _ _ hc]
    exact h.own r hr

/-- The sequence numbers stay when one connection is stored with its own. -/
theorem Server.setConn_curSeq {s : Server} {c : ConnId} {x : Conn}
    (hx : x.curSeq = (s.pool.conn c).curSeq) (d : ConnId) :
    ((s.setConn c x).pool.conn d).curSeq = (s.pool.conn d).curSeq := by
  show ((s.pool.setConn c x).conn d).curSeq = _
  by_cases hd : d = c
  · rw [hd, Pool.setConn_self, hx]
  · rw [Pool.setConn_other _ _ _ hd]

/-- Storing one connection with its own descriptor and sequence number keeps the invariant, whatever
becomes of the queue. -/
theorem SendSys.Inv.setConn {s s' : SendSys b} (h : s.Inv) {c : ConnId} {x : Conn}
    (hfd : x.fd = (s.conn c).fd) (hseq : x.curSeq = (s.conn c).curSeq)
    (hserver : s'.server = s.server.setConn c x) (hcap : s'.captured = s.captured)
    (hgiven : s'.given = s.given) : s'.Inv := by
  refine ⟨hserver ▸ Server.setConn_inv h.server hfd, ?_, by rw [hgiven, hcap]; exact h.given⟩
  intro hdr hmem
  rw [hcap] at hmem
  obtain ⟨hpool, hle, huse⟩ := h.bound hdr hmem
  have hcur : (s'.conn hdr.pconn).curSeq = (s.conn hdr.pconn).curSeq := by
    unfold SendSys.conn
    rw [hserver]
    exact Server.setConn_curSeq hseq hdr.pconn
  rw [hcur, hserver]
  exact ⟨hpool, hle, huse⟩

/-- Every step keeps the invariant. -/
theorem SendSys.step_inv (s : SendSys b) (act : SendAct b) (s' : SendSys b) (h : s.Inv)
    (hs : s.step act = some s') : s'.Inv := by
  unfold SendSys.step at hs
  split at hs
  case isTrue => simp at hs
  case isFalse hdef =>
  cases act with
  | server a =>
    simp only [Option.map_eq_some_iff] at hs
    obtain ⟨sv, hsv, rfl⟩ := hs
    refine ⟨Server.step_inv _ _ _ h.server hsv, fun hdr hmem => ?_, h.given⟩
    obtain ⟨hpool, hle, huse⟩ := h.bound hdr hmem
    obtain ⟨rfl, -⟩ | ⟨c, hc⟩ := Server.step_moves h.server hsv
    · exact ⟨hpool, hle, huse⟩
    · have hpool' : hdr.pconn ∈ sv.pool.pconnsQueue := by
        rcases hc.queue with ⟨hq, -⟩ | ⟨hq, -⟩
        · rw [hq]; exact hpool
        · rw [hq]; exact List.mem_append_left _ hpool
      refine ⟨hpool', ?_⟩
      show hdr.curSeq ≤ (sv.pool.conn hdr.pconn).curSeq ∧
        ((sv.pool.conn hdr.pconn).curSeq = hdr.curSeq → sv.InUse hdr.pconn)
      unfold SendSys.conn at hle huse
      by_cases hd : hdr.pconn = c
      · -- the subject of the step: its number is now ahead of the header
        have hlt := hc.seq (hd ▸ hpool)
        rw [hd] at hle ⊢
        exact ⟨by omega, fun he => by omega⟩
      · rw [hc.other _ hd]
        exact ⟨hle, fun he => hc.inUse _ hd (huse he)⟩
  | capture c =>
    simp only [Option.ite_none_right_eq_some, Option.some.injEq] at hs
    obtain ⟨hc, rfl⟩ := hs
    refine ⟨h.server, fun hdr hmem => ?_, fun m hm => List.mem_cons_of_mem _ (h.given m hm)⟩
    rcases List.mem_cons.mp hmem with rfl | hmem
    · exact ⟨(h.server.inUse_pool hc).1, Nat.le_refl _, fun _ => hc⟩
    · exact h.bound hdr hmem
  | sendMsg m =>
    simp only [Option.ite_none_right_eq_some, Option.some.injEq] at hs
    obtain ⟨hm, rfl⟩ := hs
    refine ⟨h.server, h.bound, fun m' hm' => ?_⟩
    rcases List.mem_append.mp hm' with hm' | hm'
    · exact h.given m' hm'
    · rw [List.mem_singleton.mp hm']
      exact hm
  | wake =>
    simp only [Option.ite_none_right_eq_some, Option.some.injEq] at hs
    obtain ⟨-, rfl⟩ := hs
    exact ⟨h.server, h.bound, h.given⟩
  | sendLoop rs =>
    obtain ⟨-, rfl⟩ | ⟨i, a, m, -, -, -, ⟨-, rfl⟩ | ⟨-, rfl⟩ | ⟨-, -, rfl⟩ | ⟨-, -, hsend⟩⟩ :=
      SendSys.sendLoop_cases hs
    · exact ⟨h.server, h.bound, h.given⟩
    · exact ⟨h.server, h.bound, h.given⟩
    · exact ⟨h.server, h.bound, h.given⟩
    · exact ⟨h.server, h.bound, h.given⟩
    · simp only [SendSys.sendOne, Option.map_eq_some_iff] at hsend
      obtain ⟨out, hout, rfl⟩ := hsend
      obtain ⟨hfd, hseq, -⟩ := sendFirst_owner hout
      exact h.setConn hfd hseq rfl rfl rfl
  | writable c rs =>
    simp only [Option.ite_none_right_eq_some] at hs
    obtain ⟨-, hs⟩ := hs
    unfold SendSys.writable at hs
    split at hs
    · obtain rfl := (Option.some.inj hs).symm
      exact ⟨h.server, h.bound, h.given⟩
    · simp only [Option.map_eq_some_iff] at hs
      obtain ⟨out, hout, rfl⟩ := hs
      obtain ⟨hfd, hseq, -⟩ := sendMsgHandler_owner hout
      exact h.setConn hfd hseq rfl rfl rfl

theorem SendSys.start_inv (b : Build) (wait : Int) (nows : List Int) :
    (SendSys.start b wait nows).Inv :=
  ⟨Mgx.start_inv wait nows, fun _ hmem => (nomatch hmem), fun _ hmem => (nomatch hmem)⟩

/-! ## Every buffer has one owner -/

/-- Storing into connection `c` moves the buffer it held and the one it gets. -/
theorem count_held_setConn {s : Server} (h : s.Inv) {c : ConnId} (hc : c ∈ s.pool.pconnsQueue)
    (x : Conn) (a : Nat) :
    (s.setConn c x).held.count a + (s.pool.conn c).psendMemAddr.toList.count a =
      s.held.count a + x.psendMemAddr.toList.count a := by
  have hnodup : s.pool.pconnsQueue.Nodup := by rw [h.queue]; exact List.nodup_range
  have hother : ∀ d, d ≠ c →
      ((s.pool.setConn c x).conn d).psendMemAddr = (s.pool.conn d).psendMemAddr :=
    fun d hd => by rw [Pool.setConn_other _ _ _ hd]
  have hset := Slots.count_held_set hnodup hc hother a
  rw [Pool.setConn_self] at hset
  exact hset

/-- What a step of the server takes from the connections, it deletes. -/
theorem count_held_moves {s s' : Server} {dels : List Addr} {c : ConnId} (h : s.Inv)
    (hfree : ∀ d ∈ s.pool.freeQueue, (s.pool.conn d).psendMemAddr = none)
    (hm : Moves s s' dels c) (a : Nat) :
    s'.held.count a + dels.count a = s.held.count a := by
  have hother : ∀ d, d ≠ c → (s'.pool.conn d).psendMemAddr = (s.pool.conn d).psendMemAddr :=
    fun d hd => by rw [hm.other d hd]
  rcases hm.queue with ⟨hq, hin⟩ | ⟨hq, hnew⟩
  · have hnodup : s.pool.pconnsQueue.Nodup := by rw [h.queue]; exact List.nodup_range
    have hset := Slots.count_held_set hnodup hin hother a
    unfold Server.held
    rw [hq]
    rcases hm.buf with ⟨hwas, hnone, hd⟩ | ⟨-, -, hsame, hd⟩ | ⟨-, hnone, hd⟩
    · have hwas : (s.pool.conn c).psendMemAddr = none :=
        hfree c (hwas.resolve_right fun h => h hin)
      rw [hwas, hnone] at hset
      rw [hd]
      simpa using hset
    · rw [hsame] at hset
      rw [hd]
      simp only [List.count_nil]
      omega
    · rw [hnone] at hset
      rw [hd]
      simpa using hset
  · -- a new connection holds nothing
    have hbuf : (s'.pool.conn c).psendMemAddr = none ∧ dels = [] := by
      rcases hm.buf with ⟨-, hnone, hd⟩ | ⟨-, hin, -⟩ | ⟨hin, -⟩
      · exact ⟨hnone, hd⟩
      · exact absurd hin hnew
      · exact absurd hin hnew
    have hheld : s'.held = s.held := by
      unfold Server.held
      rw [hq, Slots.held_append_none (fun d => (s'.pool.conn d).psendMemAddr) hbuf.1]
      exact Slots.held_congr fun d hd => hother d fun he => hnew (he ▸ hd)
    rw [hheld, hbuf.2]
    rfl

/-- Ownership, with what it rests on: a free connection holds no buffer. -/
structure SendSys.OwnInv (s : SendSys b) : Prop where
  inv : s.Inv
  owned : s.Owned
  free : ∀ c ∈ s.server.pool.freeQueue, (s.conn c).psendMemAddr = none

/-- An element of the list is there once, and nowhere else. -/
theorem SendSys.Owned.listed {s : SendSys b} (h : s.Owned) {i a : Nat}
    (ha : s.sendList[i]? = some a) :
    a ∉ s.deleted ∧ i < s.sendList.length ∧
      ∀ x, (s.sendList.eraseIdx i).count x + [a].count x = s.sendList.count x := by
  obtain ⟨hi, ha⟩ := List.getElem?_eq_some_iff.mp ha
  have hmem : a ∈ s.sendList := ha ▸ List.getElem_mem hi
  have honce := h.once a
  have hpos : 0 < s.sendList.count a := List.count_pos_iff.mpr hmem
  refine ⟨List.count_eq_zero.mp ?_, hi, fun x => ?_⟩
  · split at honce <;> omega
  · have hperm := (List.getElem_cons_eraseIdx_perm hi).count_eq x
    rw [ha, List.count_cons] at hperm
    rw [List.count_cons, List.count_nil]
    omega

/-- What a step of the server takes from a connection it deletes. -/
theorem SendSys.OwnInv.server_step {s : SendSys b} (h : s.OwnInv) {a : ServerAct} {sv : Server}
    (hsv : s.server.step a = some sv) (dels : List Addr) (hdels : dels = s.server.deletes a)
    (hinv : ({ s with server := sv, deleted := s.deleted ++ dels } : SendSys b).Inv) :
    ({ s with server := sv, deleted := s.deleted ++ dels } : SendSys b).OwnInv := by
  subst hdels
  obtain ⟨rfl, hd⟩ | ⟨c, hc⟩ := Server.step_moves h.inv.server hsv
  · refine ⟨hinv, ⟨fun a => ?_, h.owned.cnt, h.owned.defined⟩, h.free⟩
    have := h.owned.once a
    rw [hd, List.append_nil]
    exact this
  · refine ⟨hinv, ⟨fun a => ?_, h.owned.cnt, h.owned.defined⟩, fun d hd => ?_⟩
    · have honce := h.owned.once a
      have hheld := count_held_moves h.inv.server h.free hc a
      simp only [List.count_append]
      omega
    · show (sv.pool.conn d).psendMemAddr = none
      by_cases hdc : d = c
      · subst hdc
        rcases hc.buf with ⟨-, hnone, -⟩ | ⟨hnot, -⟩ | ⟨-, hnone, -⟩
        · exact hnone
        · exact absurd hd hnot
        · exact hnone
      · rw [hc.other d hdc]
        exact h.free d ((hc.free d hd).resolve_right hdc)

/-- A new buffer is in the list. -/
theorem SendSys.Owned.sendMsg {s : SendSys b} (h : s.Owned) (m : SendBuf b) :
    (s.sendMsg m).Owned := by
  refine ⟨fun a => ?_, ?_, h.defined⟩
  · have honce := h.once a
    show (s.sendList ++ [s.given.length]).count a + s.server.held.count a + s.deleted.count a =
      if a < (s.given ++ [m]).length then 1 else 0
    rw [List.count_append, List.length_append, List.length_singleton, List.count_singleton]
    simp only [beq_iff_eq]
    by_cases hnew : s.given.length = a
    · rw [if_neg (show ¬ a < s.given.length by omega)] at honce
      rw [if_pos hnew, if_pos (show a < s.given.length + 1 by omega)]
      omega
    · have hiff : (a < s.given.length + 1) = (a < s.given.length) := propext (by omega)
      rw [if_neg hnew]
      simp only [hiff]
      omega
  · have hcnt := h.cnt
    simp only [SendSys.sendMsg, List.length_append, List.length_cons, List.length_nil]
    omega

/-- A message that is sent is off the list, and then with its connection or deleted. -/
theorem SendSys.OwnInv.sendOne {s s' : SendSys b} (h : s.OwnInv) {i a : Nat} {m : SendBuf b}
    {rs : List SendRet} (ha : s.sendList[i]? = some a) (hinv : s'.Inv)
    (hpool : m.hdr.pconn ∈ s.server.pool.pconnsQueue) (huse : s.server.InUse m.hdr.pconn)
    (hnone : (s.conn m.hdr.pconn).psendMemAddr = none) (hsend : s.sendOne i a m rs = some s') :
    s'.OwnInv := by
  obtain ⟨-, hi, hcount⟩ := h.owned.listed ha
  have hnotfree := (h.inv.server.inUse_pool huse).2
  simp only [SendSys.sendOne, Option.map_eq_some_iff] at hsend
  obtain ⟨out, hout, rfl⟩ := hsend
  obtain ⟨-, -, howner⟩ := sendFirst_owner hout
  refine ⟨hinv, ⟨fun x => ?_, ?_, h.owned.defined⟩, fun d hd => ?_⟩
  · have honce := h.owned.once x
    have hset := count_held_setConn h.inv.server hpool out.conn x
    have hrest := hcount x
    unfold SendSys.conn at hnone
    rw [hnone] at hset
    simp only [List.count_append]
    rcases howner with ⟨hmem, hdels⟩ | ⟨hmem, hdels⟩
    · rw [hmem] at hset
      rw [hdels]
      simp only [Option.toList_none, List.count_nil] at hset
      omega
    · rw [hmem] at hset
      rw [hdels]
      simp only [Option.toList_none, Option.toList_some, List.count_nil] at hset ⊢
      omega
  · have hcnt := h.owned.cnt
    show s.sendListCnt - 1 = (s.sendList.eraseIdx i).length
    rw [List.length_eraseIdx_of_lt hi]
    omega
  · have hne : d ≠ m.hdr.pconn := fun he => hnotfree (he ▸ hd)
    show ((s.server.pool.setConn _ _).conn d).psendMemAddr = none
    rw [Pool.setConn_other _ _ _ hne]
    exact h.free d hd

/-- No connection holds a deleted buffer. -/
theorem SendSys.Owned.held_live {s : SendSys b} (h : s.Owned) {c : ConnId} {a : Addr}
    (hc : c ∈ s.server.pool.pconnsQueue) (ha : (s.conn c).psendMemAddr = some a) :
    a ∉ s.deleted := by
  intro hin
  have honce := h.once a
  have hpos : 0 < s.server.held.count a :=
    List.count_pos_iff.mpr (List.mem_filterMap.mpr ⟨c, hc, ha⟩)
  have hpos' : 0 < s.deleted.count a := List.count_pos_iff.mpr hin
  split at honce <;> omega

/-- The write handler deletes the buffer of its connection, or leaves it there. -/
theorem SendSys.OwnInv.writable {s s' : SendSys b} (h : s.OwnInv) {c : ConnId}
    {rs : List SendRet} (hc : c ∈ s.server.pool.pconnsQueue) (hinv : s'.Inv)
    (hs : s.writable c rs = some s') : s'.OwnInv := by
  unfold SendSys.writable at hs
  split at hs
  · next huaf =>
    obtain ⟨a, ha, hin⟩ := huaf
    exact absurd hin (h.owned.held_live hc ha)
  · simp only [Option.map_eq_some_iff] at hs
    obtain ⟨out, hout, rfl⟩ := hs
    obtain ⟨-, -, howner⟩ := sendMsgHandler_owner hout
    unfold SendSys.conn at howner
    refine ⟨hinv, ⟨fun a => ?_, h.owned.cnt, h.owned.defined⟩, fun d hd => ?_⟩
    · have honce := h.owned.once a
      have hset := count_held_setConn h.inv.server hc out.conn a
      simp only [List.count_append]
      rcases howner with ⟨-, hmem, hdels⟩ | ⟨-, hmem, hdels⟩
      · rw [hmem] at hset
        rw [hdels]
        simp only [Option.toList_none, List.count_nil] at hset
        omega
      · rw [hmem] at hset
        rw [hdels]
        simp only [List.count_nil]
        omega
    · show ((s.server.pool.setConn c out.conn).conn d).psendMemAddr = none
      by_cases hdc : d = c
      · subst hdc
        rw [Pool.setConn_self]
        have hnone := h.free d hd
        rcases howner with ⟨-, hmem, -⟩ | ⟨-, hmem, -⟩
        · exact hmem
        · rw [hmem]; exact hnone
      · rw [Pool.setConn_other _ _ _ hdc]
        exact h.free d hd

/-- A step that meets the condition keeps ownership. -/
theorem SendSys.step_owned (s : SendSys b) (act : SendAct b) (s' : SendSys b) (h : s.OwnInv)
    (hok : VisitOk s act) (hs : s.step act = some s') : s'.OwnInv := by
  have hinv := SendSys.step_inv s act s' h.inv hs
  unfold SendSys.step at hs
  split at hs
  case isTrue => simp at hs
  case isFalse hdef =>
  cases act with
  | server a =>
    simp only [Option.map_eq_some_iff] at hs
    obtain ⟨sv, hsv, rfl⟩ := hs
    exact h.server_step hsv _ rfl hinv
  | capture c =>
    simp only [Option.ite_none_right_eq_some, Option.some.injEq] at hs
    obtain ⟨-, rfl⟩ := hs
    exact ⟨hinv, ⟨h.owned.once, h.owned.cnt, h.owned.defined⟩, h.free⟩
  | sendMsg m =>
    simp only [Option.ite_none_right_eq_some, Option.some.injEq] at hs
    obtain ⟨-, rfl⟩ := hs
    exact ⟨hinv, h.owned.sendMsg m, h.free⟩
  | wake =>
    simp only [Option.ite_none_right_eq_some, Option.some.injEq] at hs
    obtain ⟨-, rfl⟩ := hs
    exact ⟨hinv, ⟨h.owned.once, h.owned.cnt, h.owned.defined⟩, h.free⟩
  | sendLoop rs =>
    obtain ⟨-, rfl⟩ | ⟨i, a, m, hit, ha, hm, hcase⟩ := SendSys.sendLoop_cases hs
    · exact ⟨hinv, ⟨h.owned.once, h.owned.cnt, h.owned.defined⟩, h.free⟩
    · obtain ⟨hcur, hheld⟩ := hok nofun m (SendSys.visited_eq hit ha hm)
      rcases hcase with ⟨hin, -⟩ | ⟨hstale, -⟩ | ⟨-, hbusy, rfl⟩ | ⟨-, hidle, hsend⟩
      · exact absurd hin (h.owned.listed ha).1
      · rw [hcur, seqEq_self] at hstale
        simp at hstale
      · exact ⟨hinv, ⟨h.owned.once, h.owned.cnt, h.owned.defined⟩, h.free⟩
      · obtain ⟨hpool, -, huse⟩ := h.inv.bound m.hdr (h.inv.given m (List.mem_of_getElem? hm))
        have hnone : (s.conn m.hdr.pconn).psendMemAddr = none := hheld.resolve_left (by omega)
        exact h.sendOne ha hinv hpool (huse hcur) hnone hsend
  | writable c rs =>
    simp only [Option.ite_none_right_eq_some] at hs
    exact h.writable hs.1 hinv hs.2

/-- The connections `conn_pool_init` creates hold no buffer. -/
theorem initOne_foldl_free (nows : List Int) : ∀ {p : Pool},
    (∀ c, (p.conn c).psendMemAddr = none) →
    ∀ c, ((nows.foldl Pool.initOne p).conn c).psendMemAddr = none := by
  induction nows with
  | nil => intro p h; exact h
  | cons now nows ih =>
    intro p h
    apply ih
    intro c
    show ((p.setConn _ _).conn c).psendMemAddr = none
    by_cases hc : c = p.pconnsQueue.length
    · rw [hc, Pool.setConn_self]; rfl
    · rw [Pool.setConn_other _ _ _ hc]; exact h c

theorem SendSys.start_owned (b : Build) (wait : Int) (nows : List Int) :
    (SendSys.start b wait nows).OwnInv := by
  have hfresh := initOne_foldl_free nows (p := Pool.empty wait) (fun _ => rfl)
  have hheld : (SendSys.start b wait nows).server.held = [] := by
    apply List.filterMap_eq_nil_iff.mpr
    intro c _
    exact hfresh c
  refine ⟨SendSys.start_inv b wait nows, ⟨fun a => ?_, rfl, rfl⟩, fun c _ => hfresh c⟩
  rw [hheld]
  show 0 + 0 + 0 = if a < 0 then 1 else 0
  rw [if_neg (Nat.not_lt_zero a)]

/-- **The owner of a message buffer.** In a run in which the send thread visits no message whose
connection has moved on, and starts none on a connection that still holds a buffer, every buffer
given to `send_msg` is in the list, held by one connection, or deleted, and in one of these places
once; the counter counts; nothing deleted is in the list, and no use of `end()` is made. -/
theorem send_queue_ownership (b : Build) (wait : Int) (nows : List Int) (acts : List (SendAct b))
    (s : SendSys b) (hrun : run SendSys.step (SendSys.start b wait nows) acts = some s)
    (hok : Meets SendSys.step VisitOk (SendSys.start b wait nows) acts) :
    s.Owned ∧ s.deleted.Nodup ∧ ∀ a ∈ s.sendList, a ∉ s.deleted := by
  have hown : s.OwnInv :=
    run_invariant SendSys.step_owned acts _ s (SendSys.start_owned b wait nows) hok hrun
  refine ⟨hown.owned, List.nodup_iff_count_le_one.mpr fun a => ?_, fun a ha => ?_⟩
  · have honce := hown.owned.once a
    split at honce <;> omega
  · obtain ⟨i, hi⟩ := List.mem_iff_getElem?.mp ha
    exact (hown.owned.listed hi).1

/-- A message that is dropped because its connection has moved on stays undeleted for ever, and what
is deleted is the next message of the list, or nothing that exists. -/
theorem stale_drop_breaks {s s' : SendSys b} {i : Nat} {a : Addr} {m : SendBuf b}
    {rs : List SendRet} (h : s.Owned) (hit : s.it = .elem i) (ha : s.sendList[i]? = some a)
    (hm : s.given[a]? = some m)
    (hstale : seqEq (s.conn m.hdr.pconn).curSeq m.hdr.curSeq = false)
    (hs : s.step (.sendLoop rs) = some s') : ¬ s'.Owned := by
  intro h'
  unfold SendSys.step at hs
  rw [if_neg (by rw [h.defined]; simp)] at hs
  obtain ⟨hdel, -, hcount⟩ := h.listed ha
  obtain ⟨hpast, -⟩ | ⟨i', a', m', hit', ha', hm', hcase⟩ := SendSys.sendLoop_cases hs
  · rw [hit] at hpast
    simp at hpast
  · obtain rfl : i = i' := Iter.elem.inj (hit.symm.trans hit')
    obtain rfl : a = a' := Option.some.inj (ha.symm.trans ha')
    obtain rfl : m = m' := Option.some.inj (hm.symm.trans hm')
    rcases hcase with ⟨hin, -⟩ | ⟨-, rfl⟩ | ⟨hseq, -⟩ | ⟨hseq, -⟩
    · exact hdel hin
    · -- the message itself is now in none of the places
      have hself := hcount a
      rw [List.count_cons_self, List.count_nil] at hself
      have hbefore := h.once a
      have hafter := h'.once a
      have hnext : a ∉ (s.sendList.eraseIdx i)[i]?.toList := by
        intro hmem
        have hin := List.mem_of_getElem? (Option.mem_toList.mp hmem)
        have hpos : 0 < (s.sendList.eraseIdx i).count a := List.count_pos_iff.mpr hin
        split at hbefore <;> omega
      have hzero := List.count_eq_zero.mpr hnext
      have hlist : (s.dropStale i).deleted.count a =
          s.deleted.count a + (s.sendList.eraseIdx i)[i]?.toList.count a := List.count_append
      have hin : 0 < s.sendList.count a := by omega
      have hsame : (s.dropStale i).sendList = s.sendList.eraseIdx i := rfl
      have hserver : (s.dropStale i).server = s.server := rfl
      have hgiven : (s.dropStale i).given = s.given := rfl
      rw [hsame, hserver, hgiven, hlist] at hafter
      split at hbefore <;> split at hafter <;> omega
    · rw [hseq] at hstale
      simp at hstale
    · rw [hseq] at hstale
      simp at hstale

/-- A PING reply under the message header `⟨c, seq⟩`. -/
def pingReplyTo (c : ConnId) (seq : Nat) : SendBuf .tcp := { pingReply with hdr := ⟨c, seq⟩ }

/-- Two clients, one reply each; the kernel takes the first in two parts. -/
def twoReplies : List (SendAct .tcp) :=
  [.server (.accept 5 0), .server (.accept 6 0), .capture 0, .capture 1,
    .sendMsg (pingReplyTo 0 2), .sendMsg (pingReplyTo 1 2), .wake, .sendLoop [.sent 3],
    .sendLoop [.sent 8], .writable 0 [.sent 5]]

theorem send_queue_ownership_twoReplies : ∃ s, run SendSys.step
    (SendSys.start .tcp 80 [0, 0]) twoReplies = some s ∧ s.deleted = [1, 0] ∧
      s.Owned ∧ s.deleted.Nodup ∧ ∀ a ∈ s.sendList, a ∉ s.deleted :=
  ⟨_, rfl, rfl, send_queue_ownership .tcp 80 [0, 0] twoReplies _ rfl (by decide)⟩

/-- The same, but the first client leaves before the send thread wakes up. -/
def staleReply : List (SendAct .tcp) :=
  [.server (.accept 5 0), .server (.accept 6 0), .capture 0, .capture 1,
    .sendMsg (pingReplyTo 0 2), .sendMsg (pingReplyTo 1 2),
    .server (.readable ⟨5, 0, true⟩ (.got []) 1), .wake, .sendLoop []]

/-- The reply to the first client is dropped, and the reply to the second is deleted while it is in
the list. -/
theorem send_queue_not_owned : ∃ s, run SendSys.step (SendSys.start .tcp 80 [0, 0]) staleReply =
    some s ∧ s.sendList = [1] ∧ s.deleted = [1] ∧ ¬ s.Owned :=
  ⟨_, rfl, rfl, rfl, fun h => absurd (h.once 1) (by decide)⟩

end Mgx
