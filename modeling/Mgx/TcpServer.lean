import Mgx.HttpServer
import Mgx.Replies
import Mgx.SendWire
import Mgx.Sessions

/-
  The server in TCP mode.

  All of it at work: the epoll thread accepts, reads and writes, workers process
  the packages they pop, the send thread walks its queue, the recycler frees. A
  step is one of a part, or one where two parts meet.

  Correspondence (C++ ↔ Lean):
    an event of `epoll_process_events` with EPOLLIN     ↔ `TcpServer.read`
    `insert_msg_to_queue_and_signal` in the handler     ↔ `PoolAct.call 0`, and the
                                                          steps of producer 0 after it
    `th_msg_process_func` of a worker, with the line
      of the handler and `send_msg`                     ↔ `TcpServer.process`
    everything else                                     ↔ `TcpAct.send`, `TcpAct.pool`

  There is one epoll thread, so one producer, and it does nothing else while it is
  in a call. The heartbeat is off here. A run stops where the behaviour of a part
  is undefined, and so where a handler cannot log its line.

  What is proved: `tcp_server_defined`. Reading never stores outside a buffer,
  whatever the other threads do, and a worker can process the package it has popped
  exactly when the line of its handler can be logged.
-/
namespace Mgx
open CMem Journal Runs

/-- The send side with the connections, the pool of workers, and what `recv` stored so far, each lot
under the occupancy in which it did. -/
structure TcpServer where
  send : WireSys .tcp
  pool : ThPool RecvMem
  received : List (MsgHdr × Bytes)

/-- `mgx_conn_t` at an address. -/
def TcpServer.conn (s : TcpServer) (c : ConnId) : Conn := s.send.sys.conn c

def WireSys.setConn {b : Build} (s : WireSys b) (c : ConnId) (x : Conn) : WireSys b :=
  { s with sys := { s.sys with server := s.sys.server.setConn c x } }

/-- The producer is in no call. -/
def ProducerAt.isIdle {μ : Type} : ProducerAt μ → Bool
  | .idle => true
  | _ => false

/-- The epoll thread is in no call of `insert_msg_to_queue_and_signal`. -/
def TcpServer.epollFree (s : TcpServer) : Bool := s.pool.producers.all ProducerAt.isIdle

/-- The read handler for an event of the registered descriptor `r`. -/
def TcpServer.read (s : TcpServer) (r : Reg) (ret : RecvRet) (now : Int) : Option TcpServer :=
  if s.send.sys.server.pool.staleEvent r.conn r.inst then some s
  else
    (readRequestHandler r.conn (s.conn r.conn) ret).bind fun out =>
      ((s.send.setConn r.conn out.conn).step (.server (.readable r ret now))).bind fun send =>
        (run ThPool.step s.pool (out.msgs.map (.call 0))).map fun pool =>
          { send := send
            pool := pool
            received := s.received ++ [(⟨r.conn, (s.conn r.conn).curSeq⟩, ret.stored)] }

/-- In TCP mode nothing of the message header follows its two words. -/
theorem length_hdrTail_tcp : 16 + ([] : Bytes).length = msgHdrSize .tcp := rfl

/-- The buffer of a reply: the message header, and as many bytes as its package says. -/
def LogicMsg.sendBuf (m : LogicMsg) : Option (SendBuf .tcp) :=
  if h : pkgSize m.pkg ≤ m.pkg.length then
    some { hdr := m.hdr, hdrTail := [], body := m.pkg, hdr_size := length_hdrTail_tcp, whole := h }
  else none

/-- `send_msg` of the reply, if there is one. -/
def SendSys.reply (s : SendSys .tcp) : Option LogicMsg → Option (SendSys .tcp)
  | none => some s
  | some m => m.sendBuf.map s.sendMsg

/-- Worker `i` processes the package in its hands; `x` is what the log finds. -/
def TcpServer.process (s : TcpServer) (i : Nat) (x : LogCtx) : Option TcpServer :=
  (s.pool.handledBy i).bind fun a => s.pool.inserted[a]?.bind fun m =>
    (processMsg x s.conn m).bind fun reply =>
      (s.send.sys.reply reply).bind fun sys =>
        (s.pool.step (.worker i)).map fun pool =>
          { s with send := { s.send with sys := sys }, pool := pool }

/-- What can happen. -/
inductive TcpAct where
  | readable (r : Reg) (ret : RecvRet) (now : Int)
  | send (act : SendAct .tcp)
  | pool (act : PoolAct RecvMem)
  | process (i : Nat) (x : LogCtx)

/-- The steps of the connections and the sender that are not part of others. Those of the epoll
thread are made between its calls. -/
def TcpServer.maySend (s : TcpServer) : SendAct .tcp → Bool
  | .server (.accept ..) => s.epollFree
  | .server (.acceptFails ..) => s.epollFree
  | .server (.readable ..) => false
  | .server (.recycle ..) => true
  | .capture _ => false
  | .sendMsg _ => false
  | .wake => true
  | .sendLoop _ => true
  | .writable .. => s.epollFree

/-- The same for the pool: a worker with a package to process does that next. -/
def TcpServer.mayPool (s : TcpServer) : PoolAct RecvMem → Bool
  | .worker i => (s.pool.handledBy i).isNone
  | .producer _ => true
  | .call .. => false
  | .interrupt _ => true
  | .shutdown => true

/-- One step. `recv` stores at most `rest_recv_size` bytes. -/
def TcpServer.step (s : TcpServer) (act : TcpAct) : Option TcpServer :=
  if s.send.sys.undef || s.pool.undef then none
  else match act with
    | .readable r ret now =>
      if s.epollFree ∧ r ∈ s.send.sys.server.fds ∧
          ret.stored.length ≤ (s.conn r.conn).restRecvSize then s.read r ret now
      else none
    | .send act =>
      if s.maySend act then (s.send.step act).map fun send => { s with send := send } else none
    | .pool act =>
      if s.mayPool act then (s.pool.step act).map fun pool => { s with pool := pool } else none
    | .process i x => s.process i x

/-- `n` workers, none of whom has anything to do. -/
def TcpServer.start (n : Nat) (wait : Int) (nows : List Int) : TcpServer where
  send := WireSys.start .tcp wait nows
  pool := ThPool.start RecvMem n 1
  received := []

/-! ## What the read handler leaves alone -/

/-- The two differ in the receive side only. -/
structure Conn.SameSend (c c' : Conn) : Prop where
  fd : c'.fd = c.fd
  instanceBit : c'.instanceBit = c.instanceBit
  throwSendCnt : c'.throwSendCnt = c.throwSendCnt
  psendMemAddr : c'.psendMemAddr = c.psendMemAddr
  events : c'.events = c.events

theorem Conn.SameSend.refl (c : Conn) : c.SameSend c := ⟨rfl, rfl, rfl, rfl, rfl⟩

theorem Conn.SameSend.trans {c c' c'' : Conn} (h : c.SameSend c') (h' : c'.SameSend c'') :
    c.SameSend c'' :=
  ⟨h'.fd.trans h.fd, h'.instanceBit.trans h.instanceBit, h'.throwSendCnt.trans h.throwSendCnt,
    h'.psendMemAddr.trans h.psendMemAddr, h'.events.trans h.events⟩

theorem Conn.Quiet.of_sameSend {c c' : Conn} (h : c.Quiet) (hsame : c.SameSend c') : c'.Quiet :=
  ⟨hsame.throwSendCnt.trans h.cnt, hsame.psendMemAddr.trans h.mem, hsame.events ▸ h.out⟩

/-- The call leaves the send side alone, and hands on one buffer at most. -/
def ReadOut.Modest (c : Conn) (out : ReadOut) : Prop :=
  c.SameSend out.conn ∧ (out.msgs = [] ∨ ∃ m, out.msgs = [m])

theorem recvInto_sameSend {c c' : Conn} {bs : Bytes} (h : recvInto c bs = some c') :
    c.SameSend c' := by
  unfold recvInto at h
  split at h
  · obtain ⟨b, -, rfl⟩ := Option.map_eq_some_iff.mp h
    exact ⟨rfl, rfl, rfl, rfl, rfl⟩
  · obtain ⟨m, -, rfl⟩ := Option.map_eq_some_iff.mp h
    exact ⟨rfl, rfl, rfl, rfl, rfl⟩

theorem v2_modest {c : Conn} {out : ReadOut} (h : readRequestHandlerProcessV2 c = some out) :
    out.Modest c := by
  unfold readRequestHandlerProcessV2 at h
  split at h
  · cases h
  · next m _ =>
    obtain rfl := Option.some.inj h
    exact ⟨⟨rfl, rfl, rfl, rfl, rfl⟩, .inr ⟨m, rfl⟩⟩

theorem v1_modest {self : ConnId} {c : Conn} {out : ReadOut}
    (h : readRequestHandlerProcessV1 self c = some out) : out.Modest c := by
  simp only [readRequestHandlerProcessV1] at h
  split at h
  · obtain rfl := Option.some.inj h
    exact ⟨⟨rfl, rfl, rfl, rfl, rfl⟩, .inl rfl⟩
  · split at h
    · -- a package without a body goes on at once
      obtain ⟨hsame, hmsgs⟩ := v2_modest h
      exact ⟨⟨hsame.fd, hsame.instanceBit, hsame.throwSendCnt, hsame.psendMemAddr, hsame.events⟩,
        hmsgs⟩
    · obtain rfl := Option.some.inj h
      exact ⟨⟨rfl, rfl, rfl, rfl, rfl⟩, .inl rfl⟩

theorem recvSwitch_modest {self : ConnId} {c : Conn} {n : Nat} {out : ReadOut}
    (h : recvSwitch self c n = some out) : out.Modest c := by
  have hshort : ∀ {stat}, some (shortRead c stat n) = some out → out.Modest c := by
    intro stat h
    obtain rfl := Option.some.inj h
    exact ⟨⟨rfl, rfl, rfl, rfl, rfl⟩, .inl rfl⟩
  unfold recvSwitch at h
  split at h
  · split at h
    · exact v1_modest h
    · exact hshort h
  · split at h
    · exact v1_modest h
    · exact hshort h
  · split at h
    · exact v2_modest h
    · exact hshort h
  · split at h
    · exact v2_modest h
    · exact hshort h

theorem readRequestHandler_modest {self : ConnId} {c : Conn} {ret : RecvRet} {out : ReadOut}
    (h : readRequestHandler self c ret = some out) : out.Modest c := by
  simp only [readRequestHandler] at h
  split at h
  · obtain rfl := Option.some.inj h
    exact ⟨.refl c, .inl rfl⟩
  · obtain ⟨c', hinto, hswitch⟩ := Option.bind_eq_some_iff.mp h
    obtain ⟨hsame, hmsgs⟩ := recvSwitch_modest hswitch
    exact ⟨(recvInto_sameSend hinto).trans hsame, hmsgs⟩

/-! ## What a step does to the receive sides -/

/-- A step between reads: the pool of connections stays in order, its addresses stay, and every
connection goes on. -/
structure Server.Goes (s s' : Server) : Prop where
  inv : s'.Inv
  queue : ∀ c ∈ s.pool.pconnsQueue, c ∈ s'.pool.pconnsQueue
  conns : ∀ c, GoesOn (· ∈ s.pool.pconnsQueue) s.InUse s'.InUse (s.pool.conn c) (s'.pool.conn c) c

theorem Conn.Fresh.congr {c c' : Conn} (h : c.Fresh) (hsame : c.SameRecv c') : c'.Fresh :=
  ⟨hsame.recvStat.trans h.recvStat, hsame.precvBuf.trans h.precvBuf,
    hsame.restRecvSize.trans h.restRecvSize, hsame.precvMemAddr.trans h.precvMemAddr⟩

theorem Conn.SameRecv.trans {c c' c'' : Conn} (h : c.SameRecv c') (h' : c'.SameRecv c'') :
    c.SameRecv c'' :=
  ⟨h'.curSeq.trans h.curSeq, h'.recvStat.trans h.recvStat, h'.hdrBuf.trans h.hdrBuf,
    h'.precvBuf.trans h.precvBuf, h'.restRecvSize.trans h.restRecvSize,
    h'.precvMemAddr.trans h.precvMemAddr⟩

theorem Server.Goes.refl {s : Server} (h : s.Inv) : s.Goes s :=
  ⟨h, fun _ hc => hc, fun _ => .inl ⟨.refl _, id⟩⟩

/-- One after the other. -/
theorem Server.Goes.trans {s s' s'' : Server} (h : s.Goes s') (h' : s'.Goes s'') : s.Goes s'' := by
  refine ⟨h'.inv, fun c hc => h'.queue c (h.queue c hc), fun c => ?_⟩
  rcases h.conns c with ⟨hsame, huse⟩ | ⟨hfresh, hseq⟩
  · rcases h'.conns c with ⟨hsame', huse'⟩ | ⟨hfresh', hseq'⟩
    · exact .inl ⟨hsame.trans hsame', fun hc => huse (huse' hc)⟩
    · exact .inr ⟨hfresh', fun hc => hsame.curSeq ▸ hseq' (h.queue c hc)⟩
  · rcases h'.conns c with ⟨hsame', huse'⟩ | ⟨hfresh', hseq'⟩
    · exact .inr ⟨fun hc => (hfresh (huse' hc)).congr hsame',
        fun hc => hsame'.curSeq.symm ▸ hseq hc⟩
    · exact .inr ⟨hfresh', fun hc => Nat.lt_trans (hseq hc) (hseq' (h.queue c hc))⟩

/-- The receive side of the connection that is stored is what it was. -/
theorem Server.Goes.setConn {s : Server} (h : s.Inv) {c : ConnId} {x : Conn}
    (hfd : x.fd = (s.pool.conn c).fd) (hsame : (s.pool.conn c).SameRecv x) :
    s.Goes (s.setConn c x) := by
  refine ⟨Server.setConn_inv h hfd, fun _ hd => hd, fun d => .inl ⟨?_, id⟩⟩
  show (s.pool.conn d).SameRecv ((s.pool.setConn c x).conn d)
  by_cases hd : d = c
  · rw [hd, Pool.setConn_self]
    exact hsame
  · rw [Pool.setConn_other _ _ _ hd]
    exact .refl _

/-- A step whose subject is `c`. -/
theorem Moves.goes {s s' : Server} {dels : List Addr} {c : ConnId} (h : Moves s s' dels c)
    (hinv : s'.Inv) (hself : s'.InUse c → (s'.pool.conn c).Fresh)
    (hother : ∀ d, d ≠ c → s'.InUse d → s.InUse d) : s.Goes s' := by
  refine ⟨hinv, fun d hd => ?_, fun d => ?_⟩
  · rcases h.queue with ⟨hq, -⟩ | ⟨hq, -⟩
    · exact hq ▸ hd
    · rw [hq]
      exact List.mem_append_left _ hd
  · by_cases hd : d = c
    · subst hd
      exact .inr ⟨hself, h.seq⟩
    · exact .inl ⟨h.other d hd ▸ .refl _, hother d hd⟩

theorem Server.accept_goes {s s' : Server} {fd now : Int} {c : ConnId} (h : s.Inv)
    (hs : s.accept fd now = some (c, s')) : s.Goes s' := by
  have hinv := (accept_inv h hs).1
  have hmoves := (accept_moves h hs).1
  obtain ⟨p, hget, -, rfl⟩ := Server.accept_spec hs
  apply hmoves.goes hinv fun _ => Pool.getConn_fresh hget
  intro d hd huse
  rcases List.mem_cons.mp huse with heq | huse
  · exact absurd heq hd
  · exact huse

/-- A connection that is closed is not in use any more, the others are as before. -/
theorem Server.Inv.closed {s : Server} (h : s.Inv) {c d : ConnId} (hc : s.InUse c)
    (hd : d ∈ (closeFd s.fds (s.pool.conn c).fd).map Reg.conn) : d ≠ c ∧ s.InUse d := by
  obtain ⟨r, hr, rfl⟩ := List.mem_map.mp hd
  obtain ⟨hmem, hne⟩ := (h.close hc).2.2 r hr
  exact ⟨hne, List.mem_map_of_mem hmem⟩

theorem Server.closeConn_goes {s : Server} (h : s.Inv) {c : ConnId} (hc : s.InUse c) :
    s.Goes (s.closeConn c) := by
  have hmoves := freeConn_moves (h.inUse_pool hc).1 fun d hd huse => h.close_inUse hc hd huse
  exact hmoves.goes (closeConn_inv h hc) (fun huse => absurd rfl (h.closed hc huse).1)
    fun d _ huse => (h.closed hc huse).2

theorem Server.insertRecyConnQueue_goes {s : Server} (h : s.Inv) {c : ConnId} (hc : s.InUse c)
    (now : Int) : s.Goes (s.insertRecyConnQueue c now) :=
  (insertRecy_moves h hc now).goes (insertRecyConnQueue_inv h hc now)
    (fun huse => absurd rfl (h.closed hc huse).1) fun _ _ huse => (h.closed hc huse).2

theorem Server.recyConn_goes {s : Server} (h : s.Inv) {c : ConnId} (hc : c ∈ s.pool.recySet) :
    s.Goes { s with pool := s.pool.recyConn c } := by
  have hpos : 0 < s.pool.recySet.count c := List.count_pos_iff.mpr hc
  have honce := h.once c
  have hpool : c ∈ s.pool.pconnsQueue := List.count_pos_iff.mp (by omega)
  have hmoves := freeConn_moves (s := ⟨{ s.pool with
      recySet := s.pool.recySet.erase c
      totalRecyConnsCnt := s.pool.totalRecyConnsCnt - 1 }, s.fds⟩) (t := s.fds) hpool
    fun d _ huse => huse
  have hgoes := hmoves.goes (recyConn_inv h hc)
    (fun huse => absurd (h.inUse huse).2.1 (Nat.ne_of_gt hpos)) fun d _ huse => huse
  -- taking `c` out of the recycle set changes no connection
  exact ⟨hgoes.inv, hgoes.queue, hgoes.conns⟩

theorem Server.step_goes {s s' : Server} {a : ServerAct} (h : s.Inv) (hs : s.step a = some s') :
    s.Goes s' := by
  cases a with
  | accept fd now =>
    obtain ⟨⟨c, s₁⟩, hacc, rfl⟩ := Option.map_eq_some_iff.mp hs
    exact Server.accept_goes h hacc
  | acceptFails fd now =>
    obtain ⟨⟨c, s₁⟩, hacc, rfl⟩ := Option.map_eq_some_iff.mp hs
    obtain ⟨hinv, huse⟩ := accept_inv h hacc
    exact (Server.accept_goes h hacc).trans (Server.closeConn_goes hinv huse)
  | readable r ret now =>
    obtain ⟨hr, hs⟩ := Option.ite_none_right_eq_some.mp hs
    obtain rfl := Option.some.inj hs
    have huse : s.InUse r.conn := List.mem_map_of_mem hr
    unfold Server.readEvent
    split
    · exact .refl h
    · split
      · exact .refl h
      · exact Server.insertRecyConnQueue_goes h huse now
      · exact Server.closeConn_goes h huse
  | recycle c now =>
    obtain ⟨⟨hc, -⟩, hs⟩ := Option.ite_none_right_eq_some.mp hs
    obtain rfl := Option.some.inj hs
    exact Server.recyConn_goes h hc

/-- The senders leave the receive side alone. -/
theorem sendFirst_sameRecv {b : Build} {a : Addr} {body : Bytes} {c : Conn} {rs : List SendRet}
    {out : SendOut} (h : sendFirst b a body c rs = some out) : c.SameRecv out.conn := by
  obtain ⟨n, -, -, -, -, ⟨-, -, -, hc⟩ | ⟨-, -, -, hc⟩ | ⟨-, -, hc⟩ | ⟨-, -, hc⟩ | ⟨-, -, hc⟩⟩ :=
    sendFirst_cases h
  all_goals
    rw [hc]
    exact ⟨rfl, rfl, rfl, rfl, rfl, rfl⟩

theorem sendMsgHandler_sameRecv {c : Conn} {rs : List SendRet} {out : SendOut}
    (h : sendMsgHandler c rs = some out) : c.SameRecv out.conn := by
  obtain ⟨n, -, ⟨-, -, rfl⟩ | ⟨-, -, rfl⟩ | ⟨-, rfl⟩ | ⟨-, rfl⟩⟩ := sendMsgHandler_cases h
  all_goals exact ⟨rfl, rfl, rfl, rfl, rfl, rfl⟩

/-- A step that is no call of `send_msg`. -/
theorem SendSys.step_goes {b : Build} {s s' : SendSys b} {act : SendAct b} (h : s.server.Inv)
    (hact : ∀ m, act ≠ .sendMsg m) (hs : s.step act = some s') :
    s.server.Goes s'.server ∧ s'.given = s.given := by
  unfold SendSys.step at hs
  split at hs
  case isTrue => cases hs
  case isFalse =>
  cases act with
  | server a =>
    obtain ⟨server, hserver, rfl⟩ := Option.map_eq_some_iff.mp hs
    exact ⟨Server.step_goes h hserver, rfl⟩
  | capture c =>
    obtain ⟨-, hs⟩ := Option.ite_none_right_eq_some.mp hs
    obtain rfl := Option.some.inj hs
    exact ⟨.refl h, rfl⟩
  | sendMsg m => exact absurd rfl (hact m)
  | wake =>
    obtain ⟨-, hs⟩ := Option.ite_none_right_eq_some.mp hs
    obtain rfl := Option.some.inj hs
    exact ⟨.refl h, rfl⟩
  | sendLoop rs =>
    obtain ⟨-, rfl⟩ | ⟨i, a, m, -, -, -, ⟨-, rfl⟩ | ⟨-, rfl⟩ | ⟨-, -, rfl⟩ | ⟨-, -, hsend⟩⟩ :=
      SendSys.sendLoop_cases hs
    · exact ⟨.refl h, rfl⟩
    · exact ⟨.refl h, rfl⟩
    · exact ⟨.refl h, rfl⟩
    · exact ⟨.refl h, rfl⟩
    · obtain ⟨out, hout, rfl⟩ := Option.map_eq_some_iff.mp hsend
      exact ⟨.setConn h (sendFirst_owner hout).1 (sendFirst_sameRecv hout), rfl⟩
  | writable c rs =>
    obtain ⟨-, hs⟩ := Option.ite_none_right_eq_some.mp hs
    unfold SendSys.writable at hs
    split at hs
    · obtain rfl := Option.some.inj hs
      exact ⟨.refl h, rfl⟩
    · obtain ⟨out, hout, rfl⟩ := Option.map_eq_some_iff.mp hs
      exact ⟨.setConn h (sendMsgHandler_owner hout).1 (sendMsgHandler_sameRecv hout), rfl⟩

/-! ## What was handed to the pool -/

/-- The message a producer has not pushed yet. -/
def ProducerAt.inHand {μ : Type} : ProducerAt μ → Option μ
  | .calling m => some m
  | .locked m => some m
  | _ => none

/-- The messages handed to the pool: those pushed, and those of the calls on their way to the push. -/
def ThPool.delivered {μ : Type} (s : ThPool μ) : List μ :=
  s.inserted ++ s.producers.filterMap ProducerAt.inHand

section
variable {μ : Type} {s s' : ThPool μ}

theorem ThPool.workerStep_inserted {i : Nat} {w : WorkerAt} (hs : s.workerStep i w = some s') :
    s'.inserted = s.inserted := by
  cases w with
  | waiting =>
    obtain ⟨-, hs⟩ := Option.ite_none_right_eq_some.mp hs
    obtain rfl := Option.some.inj hs
    rfl
  | woken =>
    obtain rfl := Option.some.inj hs
    rfl
  | entering =>
    obtain ⟨-, hs⟩ := Option.ite_none_right_eq_some.mp hs
    obtain rfl := Option.some.inj hs
    rfl
  | locked =>
    simp only [workerStep] at hs
    split at hs
    · obtain rfl := Option.some.inj hs
      rfl
    · split at hs
      · obtain rfl := Option.some.inj hs
        rfl
      · obtain rfl := Option.some.inj hs
        rfl
  | popped a =>
    obtain rfl := Option.some.inj hs
    rfl
  | counted a =>
    obtain rfl := Option.some.inj hs
    rfl
  | handling a =>
    obtain rfl := Option.some.inj hs
    rfl
  | exited => cases hs

/-- With one producer, only a call hands on a message. -/
theorem ThPool.step_delivered {act : PoolAct μ} (hone : ∃ p, s.producers = [p])
    (hact : ∀ j m, act ≠ .call j m) (hs : s.step act = some s') :
    s'.delivered = s.delivered ∧ ∃ p, s'.producers = [p] := by
  obtain ⟨p, hp⟩ := hone
  unfold step at hs
  split at hs
  case isTrue => cases hs
  case isFalse =>
  cases act with
  | worker i =>
    obtain ⟨w, -, hs⟩ := Option.bind_eq_some_iff.mp hs
    have hframe := workerStep_frame hs
    unfold delivered
    rw [workerStep_inserted hs, hframe.producers]
    exact ⟨rfl, p, hp⟩
  | producer j =>
    obtain ⟨q, hq, hs⟩ := Option.bind_eq_some_iff.mp hs
    obtain rfl : j = 0 := by
      obtain ⟨hj, -⟩ := List.getElem?_eq_some_iff.mp hq
      rw [hp] at hj
      exact Nat.lt_one_iff.mp hj
    obtain rfl : p = q := by
      rw [hp] at hq
      exact Option.some.inj hq
    have hset : ∀ p', s.producers.set 0 p' = [p'] := by
      intro p'
      rw [hp]
      rfl
    unfold delivered
    rw [hp]
    cases p with
    | idle => cases hs
    | calling m =>
      obtain ⟨-, hs⟩ := Option.ite_none_right_eq_some.mp hs
      obtain rfl := Option.some.inj hs
      simp only [setProducer, hset]
      exact ⟨rfl, _, rfl⟩
    | locked m =>
      -- the message goes from the hands of the producer to the end of the queue
      obtain rfl := Option.some.inj hs
      simp only [setProducer, hset]
      exact ⟨List.append_nil _, _, rfl⟩
    | pushed =>
      obtain rfl := Option.some.inj hs
      simp only [setProducer, hset]
      exact ⟨rfl, _, rfl⟩
    | counted =>
      obtain rfl := Option.some.inj hs
      simp only [setProducer, hset]
      exact ⟨rfl, _, rfl⟩
    | posting =>
      obtain rfl := Option.some.inj hs
      simp only [setProducer, hset]
      exact ⟨rfl, _, rfl⟩
  | call j m => exact absurd rfl (hact j m)
  | interrupt i =>
    obtain ⟨w, -, hs⟩ := Option.bind_eq_some_iff.mp hs
    obtain ⟨-, hs⟩ := Option.ite_none_right_eq_some.mp hs
    obtain rfl := Option.some.inj hs
    exact ⟨rfl, p, hp⟩
  | shutdown =>
    obtain rfl := Option.some.inj hs
    exact ⟨rfl, p, hp⟩

/-- The call for what the read handler completed. -/
theorem ThPool.call_delivered {msgs : List μ} (hone : ∃ p, s.producers = [p])
    (hmsgs : msgs = [] ∨ ∃ m, msgs = [m]) (hs : run step s (msgs.map (.call 0)) = some s') :
    s'.delivered = s.delivered ++ msgs ∧ ∃ p, s'.producers = [p] := by
  obtain rfl | ⟨m, rfl⟩ := hmsgs
  · obtain rfl := Option.some.inj hs
    exact ⟨(List.append_nil _).symm, hone⟩
  · obtain ⟨p, hp⟩ := hone
    obtain ⟨s'', hstep, hs⟩ := run_cons.mp hs
    obtain rfl := Option.some.inj hs
    unfold step at hstep
    split at hstep
    case isTrue => cases hstep
    case isFalse =>
    obtain ⟨q, hq, hstep⟩ := Option.bind_eq_some_iff.mp hstep
    obtain rfl : p = q := by
      rw [hp] at hq
      exact Option.some.inj hq
    cases p with
    | idle =>
      obtain rfl := Option.some.inj hstep
      have hset : s.producers.set 0 (.calling m) = [.calling m] := by
        rw [hp]
        rfl
      unfold delivered
      rw [hp]
      simp only [setProducer, hset]
      refine ⟨?_, _, rfl⟩
      show s.inserted ++ [m] = s.inserted ++ [] ++ [m]
      rw [List.append_nil]
    | calling _ => cases hstep
    | locked _ => cases hstep
    | pushed => cases hstep
    | counted => cases hstep
    | posting => cases hstep

end

/-! ## The invariant that needs no condition -/

/-- The connections are in order, there is one epoll thread, every package handed to the pool is in
one place, and the receive sides are tracked. -/
structure TcpServer.Sound (s : TcpServer) : Prop where
  server : s.send.sys.server.Inv
  epoll : ∃ p, s.pool.producers = [p]
  accounted : s.pool.Accounted
  tracked : Tracked s.conn (· ∈ s.send.sys.server.pool.pconnsQueue) s.send.sys.server.InUse
    s.received s.pool.delivered

/-- A step of the connections or the sender, between reads. -/
theorem Tracked.goes {s s' : Server} {received : List (MsgHdr × Bytes)} {handed : List RecvMem}
    (h : Tracked s.pool.conn (· ∈ s.pool.pconnsQueue) s.InUse received handed) (hgoes : s.Goes s') :
    Tracked s'.pool.conn (· ∈ s'.pool.pconnsQueue) s'.InUse received handed :=
  h.move hgoes.conns hgoes.queue

/-- The read handler is called for `r`, and does `out`. -/
structure TcpServer.Reads (s s' : TcpServer) (r : Reg) (ret : RecvRet) (now : Int) (out : ReadOut) :
    Prop where
  modest : out.Modest (s.conn r.conn)
  curSeq : out.conn.curSeq = (s.conn r.conn).curSeq
  send : (s.send.setConn r.conn out.conn).step (.server (.readable r ret now)) = some s'.send
  pool : run ThPool.step s.pool (out.msgs.map (.call 0)) = some s'.pool
  tracked : Tracked (s.send.setConn r.conn out.conn).sys.server.pool.conn
    (· ∈ s.send.sys.server.pool.pconnsQueue) s.send.sys.server.InUse s'.received
    (s.pool.delivered ++ out.msgs)

theorem TcpServer.Sound.reads {s s' : TcpServer} (h : s.Sound) {r : Reg} {ret : RecvRet} {now : Int}
    (hr : r ∈ s.send.sys.server.fds) (hfit : ret.stored.length ≤ (s.conn r.conn).restRecvSize)
    (hs : s.read r ret now = some s') : s' = s ∨ ∃ out, s.Reads s' r ret now out := by
  have huse : s.send.sys.server.InUse r.conn := List.mem_map_of_mem hr
  have hpool := (h.server.inUse_pool huse).1
  obtain ⟨out, hout, hseq, htracked⟩ := h.tracked.read huse hpool hfit
  unfold TcpServer.read at hs
  split at hs
  · exact .inl (Option.some.inj hs).symm
  · rw [hout, Option.bind_some] at hs
    obtain ⟨send, hsend, hs⟩ := Option.bind_eq_some_iff.mp hs
    obtain ⟨pool, hrun, rfl⟩ := Option.map_eq_some_iff.mp hs
    exact .inr ⟨out, readRequestHandler_modest hout, hseq, hsend, hrun, htracked⟩

/-- The connection object is stored, and then the event goes on as a step of the server. -/
theorem TcpServer.Reads.goes {s s' : TcpServer} {r : Reg} {ret : RecvRet} {now : Int} {out : ReadOut}
    (hreads : s.Reads s' r ret now out) (h : s.send.sys.server.Inv) :
    (s.send.setConn r.conn out.conn).sys.server.Goes s'.send.sys.server ∧
      s'.send.sys.given = s.send.sys.given := by
  have hinv : (s.send.setConn r.conn out.conn).sys.server.Inv :=
    Server.setConn_inv h hreads.modest.1.fd
  obtain ⟨-, hsend⟩ := Option.ite_none_right_eq_some.mp hreads.send
  obtain ⟨sys, hsys, heq⟩ := Option.map_eq_some_iff.mp hsend
  rw [← heq]
  exact SendSys.step_goes (s := (s.send.setConn r.conn out.conn).sys) hinv
    (fun m hact => by cases hact) hsys

/-- A read of a connection in use keeps the invariant whatever it brings. -/
theorem TcpServer.Reads.sound {s s' : TcpServer} {r : Reg} {ret : RecvRet} {now : Int} {out : ReadOut}
    (hreads : s.Reads s' r ret now out) (h : s.Sound) : s'.Sound := by
  obtain ⟨hdelivered, hepoll⟩ := ThPool.call_delivered h.epoll hreads.modest.2 hreads.pool
  obtain ⟨hgoes, -⟩ := hreads.goes h.server
  refine ⟨hgoes.inv, hepoll, ?_, ?_⟩
  · exact run_invariant_all (fun _ _ _ hpool hs => hpool.step hs) h.accounted hreads.pool
  · rw [hdelivered]
    exact hreads.tracked.goes hgoes

/-! ## Processing a package -/

/-- What a client is to get for a package in the queue. -/
def RecvMem.answer (m : RecvMem) : Option (Nat × Bytes) := (m.pkg.mapM id).bind Mgx.answer

theorem answer_emit (self : ConnId) (seq : Nat) (p : Bytes) :
    (emit self seq p).answer = Mgx.answer p := by
  rw [RecvMem.answer, emit, mapM_some, Option.bind_some]

/-- The buffers that are given to `send_msg` for `m`: the answer or nothing, and the answer if the
occupancy lasts. -/
structure RepliesTo (conn : ConnId → Conn) (m : RecvMem) (bufs : List (SendBuf .tcp)) : Prop where
  hdr : ∀ buf ∈ bufs, buf.hdr = m.hdr
  sub : (bufs.map SendBuf.payload).Sublist (m.answer.toList.map fun x => package x.1 x.2)
  all : (conn m.hdr.pconn).curSeq = m.hdr.curSeq →
    bufs.map SendBuf.payload = m.answer.toList.map fun x => package x.1 x.2

/-- A package behind its header is as long as it says. -/
theorem pkgSize_package {x : Nat × Bytes} (hx : pkgHdrSize + x.2.length < 2 ^ 16) :
    pkgSize (package x.1 x.2) = (package x.1 x.2).length := by
  have hsize := @pkgSize_pkgBytes x.1 (if x.2 = [] then 0 else getCrc32 x.2 crc32Init) x.2 hx []
  rw [List.append_nil] at hsize
  rw [package, hsize, length_pkgBytes]

theorem sendBuf_package (hdr : MsgHdr) {x : Nat × Bytes} (hx : pkgHdrSize + x.2.length < 2 ^ 16) :
    ∃ buf, (LogicMsg.mk hdr (package x.1 x.2)).sendBuf = some buf ∧ buf.hdr = hdr ∧
      buf.payload = package x.1 x.2 := by
  have hsize := pkgSize_package hx
  refine ⟨⟨hdr, [], package x.1 x.2, rfl, Nat.le_of_eq hsize⟩, dif_pos (Nat.le_of_eq hsize), rfl, ?_⟩
  show (package x.1 x.2).take (pkgSize (package x.1 x.2)) = package x.1 x.2
  rw [hsize, List.take_length]

/-- For an occupancy that is over no handler is called. -/
theorem thMsgProcessFunc_stale {conn conn' : ConnId → Conn} {m : LogicMsg} {call : Option HandlerCall}
    (hdef : thMsgProcessFunc conn' m = some call)
    (hstale : seqEq (conn m.hdr.pconn).curSeq m.hdr.curSeq = false) :
    thMsgProcessFunc conn m = some none := by
  simp only [thMsgProcessFunc] at hdef ⊢
  split at hdef
  · cases hdef
  · next hlong =>
    rw [if_neg hlong]
    split at hdef
    · cases hdef
    · next hwhole =>
      rw [if_neg hwhole, hstale]
      simp

/-- Nothing is done for a package of an occupancy that is over. -/
theorem processMsg_stale (x : LogCtx) {conn : ConnId → Conn} {self : ConnId} {seq : Nat} {p : Bytes}
    (hp : WellFormed p) (hseq : seqEq (conn self).curSeq seq = false) :
    processMsg x conn (emit self seq p) = some none := by
  -- it would come to a call in its occupancy
  have hcall := thMsgProcessFunc_wellFormed (fun _ => { Conn.new with curSeq := seq })
    ⟨self, seq⟩ hp (seqEq_self seq)
  rw [processMsg, emit, mapM_some, Option.bind_some, thMsgProcessFunc_stale hcall hseq,
    Option.bind_some]

/-- The line for a package can be logged, if its occupancy lasts. -/
def LogCtx.LogsFor (x : LogCtx) (conn : ConnId → Conn) (hdr : MsgHdr) (p : Bytes) : Prop :=
  seqEq (conn hdr.pconn).curSeq hdr.curSeq = true → x.LogsPkg p

/-- A package of the protocol is processed exactly when its line can be logged. -/
theorem processMsg_isSome_iff (x : LogCtx) (conn : ConnId → Conn) (self : ConnId) (seq : Nat)
    {p : Bytes} (hp : WellFormed p) :
    (processMsg x conn (emit self seq p)).isSome ↔ x.LogsFor conn ⟨self, seq⟩ p := by
  unfold LogCtx.LogsFor
  cases hseq : seqEq (conn self).curSeq seq with
  | true =>
    rw [(processMsg_emit x hp hseq).1]
    exact ⟨fun h _ => h, fun h => h rfl⟩
  | false =>
    rw [processMsg_stale x hp hseq]
    exact iff_of_true rfl nofun

/-- What is sent for it. -/
theorem processMsg_replies {x : LogCtx} {conn : ConnId → Conn} {self : ConnId} {seq : Nat}
    {p : Bytes} (hp : WellFormed p) {reply : Option LogicMsg}
    (h : processMsg x conn (emit self seq p) = some reply) (sys : SendSys .tcp) : ∃ bufs,
      sys.reply reply = some (bufs.foldl SendSys.sendMsg sys) ∧
      RepliesTo conn (emit self seq p) bufs := by
  cases hseq : seqEq (conn self).curSeq seq with
  | false =>
    rw [processMsg_stale x hp hseq] at h
    obtain rfl := Option.some.inj h
    refine ⟨[], rfl, fun _ hbuf => (by cases hbuf), List.nil_sublist _, fun heq => ?_⟩
    have heq : (conn self).curSeq = seq := heq
    rw [heq, seqEq_self] at hseq
    cases hseq
  | true =>
    obtain rfl := (processMsg_emit x hp hseq).2 reply h
    cases hanswer : Mgx.answer p with
    | none =>
      refine ⟨[], rfl, fun _ hbuf => (by cases hbuf), List.nil_sublist _, fun _ => ?_⟩
      rw [answer_emit, hanswer]
      rfl
    | some y =>
      obtain ⟨buf, hbuf, hhdr, hpayload⟩ := sendBuf_package ⟨self, seq⟩ (answer_bounds hanswer).2
      have hall : [buf].map SendBuf.payload =
          (emit self seq p).answer.toList.map fun x => package x.1 x.2 := by
        rw [answer_emit, hanswer, List.map_singleton, hpayload]
        rfl
      refine ⟨[buf], ?_, fun b hb => ?_, hall ▸ .refl _, fun _ => hall⟩
      · rw [Option.map_some, SendSys.reply, hbuf]
        rfl
      · rw [List.mem_singleton.mp hb]
        exact hhdr

/-- What was handed on is a package of the occupancy in its header. -/
theorem Tracked.emitted {conn : ConnId → Conn} {known used : ConnId → Prop}
    {received : List (MsgHdr × Bytes)} {handed : List RecvMem}
    (h : Tracked conn known used received handed) {m : RecvMem} (hm : m ∈ handed) :
    ∃ p, WellFormed p ∧ m = emit m.hdr.pconn m.hdr.curSeq p := by
  have hmem : m ∈ handed.filter fun x => x.hdr == m.hdr := List.mem_filter.mpr ⟨hm, by simp⟩
  rw [h.handed m.hdr] at hmem
  obtain ⟨p, hp, heq⟩ := List.mem_map.mp hmem
  exact ⟨p, wellFormed_of_parse _ p hp, heq.symm⟩

/-- A worker handles a package that was pushed. -/
theorem ThPool.Accounted.handling {μ : Type} {s : ThPool μ} (h : s.Accounted) {i : Nat} {a : Addr}
    (ha : s.workers[i]? = some (.handling a)) : ∃ m, s.inserted[a]? = some m := by
  have hhands : a ∈ s.hands := List.mem_filterMap.mpr ⟨_, List.mem_of_getElem? ha, rfl⟩
  have hmem : a ∈ s.ledger := List.mem_append_right _ (List.mem_append_left _ hhands)
  have hlt := List.mem_range.mp (h.mem_iff.mp hmem)
  exact ⟨_, List.getElem?_eq_getElem hlt⟩

theorem ThPool.mem_delivered {μ : Type} {s : ThPool μ} {a : Addr} {m : μ}
    (hm : s.inserted[a]? = some m) : m ∈ s.delivered :=
  List.mem_append_left _ (List.mem_of_getElem? hm)

/-- The worker's step. -/
structure TcpServer.Processes (s s' : TcpServer) (i : Nat) (m : RecvMem)
    (bufs : List (SendBuf .tcp)) : Prop where
  pushed : ∃ a, s.pool.handledBy i = some a ∧ s.pool.inserted[a]? = some m
  replies : RepliesTo s.conn m bufs
  pool : s.pool.step (.worker i) = some s'.pool
  send : s'.send = { s.send with sys := bufs.foldl SendSys.sendMsg s.send.sys }
  received : s'.received = s.received

/-- The package a worker has in its hands. -/
theorem TcpServer.Sound.handling {s : TcpServer} (h : s.Sound) {i : Nat} {a : Addr}
    (ha : s.pool.workers[i]? = some (.handling a)) :
    ∃ m p, s.pool.inserted[a]? = some m ∧ WellFormed p ∧ m = emit m.hdr.pconn m.hdr.curSeq p := by
  obtain ⟨m, hm⟩ := h.accounted.handling ha
  obtain ⟨p, hp, hemit⟩ := h.tracked.emitted (ThPool.mem_delivered hm)
  exact ⟨m, p, hm, hp, hemit⟩

theorem TcpServer.Sound.processes {s s' : TcpServer} (h : s.Sound) {i : Nat} {x : LogCtx}
    (hs : s.process i x = some s') : ∃ m bufs, s.Processes s' i m bufs := by
  obtain ⟨a, ha, hs⟩ := Option.bind_eq_some_iff.mp hs
  obtain ⟨m, p, hm, hp, hemit⟩ := h.handling (ThPool.handledBy_eq ha)
  rw [hm, Option.bind_some] at hs
  obtain ⟨reply, hprocess, hs⟩ := Option.bind_eq_some_iff.mp hs
  rw [hemit] at hprocess
  obtain ⟨bufs, hreply, hreplies⟩ := processMsg_replies hp hprocess s.send.sys
  rw [← hemit] at hreplies
  rw [hreply, Option.bind_some] at hs
  obtain ⟨pool, hstep, rfl⟩ := Option.map_eq_some_iff.mp hs
  exact ⟨m, bufs, ⟨a, ha, hm⟩, hreplies, hstep, rfl, rfl⟩

/-- A worker can process what it has in its hands exactly when the line for it can be logged. -/
theorem TcpServer.Sound.process_iff {s : TcpServer} (h : s.Sound) (hpool : s.pool.undef = false)
    {i : Nat} {a : Addr} (ha : s.pool.workers[i]? = some (.handling a)) :
    ∃ m p, s.pool.inserted[a]? = some m ∧ m = emit m.hdr.pconn m.hdr.curSeq p ∧
      ∀ x, (∃ s', s.process i x = some s') ↔ x.LogsFor s.conn m.hdr p := by
  obtain ⟨m, p, hm, hp, hemit⟩ := h.handling ha
  refine ⟨m, p, hm, hemit, fun x => ?_⟩
  have hhandled : s.pool.handledBy i = some a := by
    rw [ThPool.handledBy, ha]
  have hstep : ∃ pool, s.pool.step (.worker i) = some pool := by
    unfold ThPool.step
    simp only [hpool, Bool.false_eq_true, if_false, ha, Option.bind_some, ThPool.workerStep,
      Option.some.injEq, exists_eq']
  have hsome := processMsg_isSome_iff x s.conn m.hdr.pconn m.hdr.curSeq hp
  rw [← hsome, ← hemit]
  constructor
  · intro h
    obtain ⟨s', hs⟩ := h
    rw [TcpServer.process, hhandled, Option.bind_some, hm, Option.bind_some] at hs
    obtain ⟨reply, hprocess, -⟩ := Option.bind_eq_some_iff.mp hs
    rw [hprocess]
    rfl
  · intro hdef
    obtain ⟨reply, hprocess⟩ := Option.isSome_iff_exists.mp hdef
    obtain ⟨bufs, hreply, -⟩ := processMsg_replies hp (hemit ▸ hprocess) s.send.sys
    obtain ⟨pool, hpoolStep⟩ := hstep
    refine ⟨{ s with
      send := { s.send with sys := bufs.foldl SendSys.sendMsg s.send.sys }, pool := pool }, ?_⟩
    simp only [TcpServer.process, hhandled, hm, Option.bind_some, hprocess, hreply, hpoolStep,
      Option.map_some]

/-- `send_msg` touches no connection. -/
theorem foldl_sendMsg_server {b : Build} (bufs : List (SendBuf b)) : ∀ s : SendSys b,
    (bufs.foldl SendSys.sendMsg s).server = s.server := by
  induction bufs with
  | nil => exact fun _ => rfl
  | cons buf bufs ih => exact fun s => ih (s.sendMsg buf)

/-- A step of the sender that is allowed is no call of `send_msg`. -/
theorem TcpServer.maySend_ne {s : TcpServer} {act : SendAct .tcp} (h : s.maySend act = true) :
    ∀ m, act ≠ .sendMsg m := by
  rintro m rfl
  cases h

theorem TcpServer.mayPool_ne {s : TcpServer} {act : PoolAct RecvMem} (h : s.mayPool act = true) :
    ∀ j m, act ≠ .call j m := by
  rintro j m rfl
  cases h

/-- What a step can be. -/
theorem TcpServer.step_cases {s s' : TcpServer} {act : TcpAct} (hs : s.step act = some s') :
    s.send.sys.undef = false ∧ s.pool.undef = false ∧
    ((∃ r ret now, r ∈ s.send.sys.server.fds ∧
        ret.stored.length ≤ (s.conn r.conn).restRecvSize ∧ s.read r ret now = some s') ∨
     (∃ a send, act = .send a ∧ s.maySend a = true ∧ s.send.step a = some send ∧
        s' = { s with send := send }) ∨
     (∃ a pool, s.mayPool a = true ∧ s.pool.step a = some pool ∧
        s' = { s with pool := pool }) ∨
     ∃ i x, s.process i x = some s') := by
  unfold step at hs
  obtain ⟨hundef, hs⟩ := Option.ite_none_left_eq_some.mp hs
  obtain ⟨hsend, hpool⟩ := not_or.mp (mt (Bool.or_eq_true _ _).mpr hundef)
  refine ⟨Bool.eq_false_iff.mpr hsend, Bool.eq_false_iff.mpr hpool, ?_⟩
  cases act with
  | readable r ret now =>
    obtain ⟨⟨-, hr, hfit⟩, hs⟩ := Option.ite_none_right_eq_some.mp hs
    exact .inl ⟨r, ret, now, hr, hfit, hs⟩
  | send act =>
    obtain ⟨hmay, hs⟩ := Option.ite_none_right_eq_some.mp hs
    obtain ⟨send, hsend, rfl⟩ := Option.map_eq_some_iff.mp hs
    exact .inr (.inl ⟨act, send, rfl, hmay, hsend, rfl⟩)
  | pool act =>
    obtain ⟨hmay, hs⟩ := Option.ite_none_right_eq_some.mp hs
    obtain ⟨pool, hpool, rfl⟩ := Option.map_eq_some_iff.mp hs
    exact .inr (.inr (.inl ⟨act, pool, hmay, hpool, rfl⟩))
  | process i x => exact .inr (.inr (.inr ⟨i, x, hs⟩))

/-- Every step keeps the invariant. -/
theorem TcpServer.step_sound (s : TcpServer) (act : TcpAct) (s' : TcpServer) (h : s.Sound)
    (hs : s.step act = some s') : s'.Sound := by
  obtain ⟨-, -, ⟨r, ret, now, hr, hfit, hs⟩ | ⟨a, send, -, hmay, hsend, rfl⟩ |
    ⟨a, pool, hmay, hstep, rfl⟩ | ⟨i, x, hs⟩⟩ := step_cases hs
  · obtain rfl | ⟨out, hreads⟩ := h.reads hr hfit hs
    · exact h
    · exact hreads.sound h
  · obtain ⟨-, hsend⟩ := Option.ite_none_right_eq_some.mp hsend
    obtain ⟨sys, hsys, rfl⟩ := Option.map_eq_some_iff.mp hsend
    have hgoes := (SendSys.step_goes h.server (maySend_ne hmay) hsys).1
    exact ⟨hgoes.inv, h.epoll, h.accounted, h.tracked.goes hgoes⟩
  · obtain ⟨hdelivered, hepoll⟩ := ThPool.step_delivered h.epoll (mayPool_ne hmay) hstep
    exact ⟨h.server, hepoll, h.accounted.step hstep, hdelivered.symm ▸ h.tracked⟩
  · obtain ⟨m, bufs, hprocesses⟩ := h.processes hs
    obtain ⟨hdelivered, hepoll⟩ :=
      ThPool.step_delivered h.epoll (fun j m hact => by cases hact) hprocesses.pool
    have hserver : s'.send.sys.server = s.send.sys.server := by
      rw [hprocesses.send]
      exact foldl_sendMsg_server bufs _
    refine ⟨hserver ▸ h.server, hepoll, h.accounted.step hprocesses.pool, ?_⟩
    have htracked := h.tracked
    unfold conn SendSys.conn at htracked ⊢
    rw [hserver, hprocesses.received, hdelivered]
    exact htracked

theorem TcpServer.start_sound (n : Nat) (wait : Int) (nows : List Int) :
    (TcpServer.start n wait nows).Sound :=
  ⟨Mgx.start_inv wait nows, ⟨_, rfl⟩, ThPool.start_accounted _ n 1,
    Tracked.start.mpr fun _ hc => absurd hc List.not_mem_nil⟩

/-- A call for what the read handler completed can be made. -/
theorem ThPool.call_isSome {μ : Type} {s : ThPool μ} {msgs : List μ} (hdef : s.undef = false)
    (hone : ∃ p, s.producers = [p]) (hidle : s.producers.all ProducerAt.isIdle = true)
    (hmsgs : msgs = [] ∨ ∃ m, msgs = [m]) :
    ∃ s', run step s (msgs.map (.call 0)) = some s' := by
  obtain rfl | ⟨m, rfl⟩ := hmsgs
  · exact ⟨s, rfl⟩
  · obtain ⟨p, hp⟩ := hone
    rw [hp, List.all_cons, List.all_nil, Bool.and_true] at hidle
    have hstep : s.step (.call 0 m) = some (s.setProducer 0 (.calling m)) := by
      unfold step
      cases p with
      | idle => simp [hdef, hp]
      | calling _ => cases hidle
      | locked _ => cases hidle
      | pushed => cases hidle
      | counted => cases hidle
      | posting => cases hidle
    exact ⟨_, run_cons.mpr ⟨_, hstep, rfl⟩⟩

theorem WireSys.readable_isSome {b : Build} {s : WireSys b} (hdef : s.sys.undef = false) {r : Reg}
    (hr : r ∈ s.sys.server.fds) (ret : RecvRet) (now : Int) :
    ∃ s', s.step (.server (.readable r ret now)) = some s' := by
  obtain ⟨sys, hsys⟩ : ∃ sys, s.sys.step (.server (.readable r ret now)) = some sys := by
    unfold SendSys.step
    simp [hdef, Server.step, hr]
  refine ⟨⟨sys, s.wire ++ []⟩, ?_⟩
  simp only [step, SendSys.reports, if_true, hsys, Option.map_some, SendSys.writes, Option.toList_none]

/-- A read of a connection in use is defined. -/
theorem TcpServer.Sound.read_isSome {s : TcpServer} (h : s.Sound)
    (hsend : s.send.sys.undef = false) (hpool : s.pool.undef = false) (hfree : s.epollFree = true)
    {r : Reg} (hr : r ∈ s.send.sys.server.fds) {ret : RecvRet}
    (hfit : ret.stored.length ≤ (s.conn r.conn).restRecvSize) (now : Int) :
    ∃ s', s.read r ret now = some s' := by
  unfold TcpServer.read
  split
  · exact ⟨_, rfl⟩
  · have huse : s.send.sys.server.InUse r.conn := List.mem_map_of_mem hr
    obtain ⟨out, hout, -, -⟩ := h.tracked.read huse (h.server.inUse_pool huse).1 hfit
    obtain ⟨pool, hrun⟩ :=
      ThPool.call_isSome hpool h.epoll hfree (readRequestHandler_modest hout).2
    obtain ⟨send, hstep⟩ :=
      WireSys.readable_isSome (s := s.send.setConn r.conn out.conn) hsend hr ret now
    simp only [hout, Option.bind_some, hstep, hrun, Option.map_some, Option.some.injEq,
      exists_eq']

/-- **Nothing undefined on the way in.** Whatever the threads do and in whatever order, clients come
and go, waits are interrupted and the pool is shut down: while neither the send queue nor the pool
has met undefined behaviour, the epoll thread can read whatever a client in use has sent, every store
being inside the buffer that the window is in; what a worker has popped is a package, every byte of
which was received, and it can be processed, whatever the log finds, exactly when the line of its
handler can be logged or its occupancy is over; and what was handed to the pool so far is for each
occupancy the packages in the bytes received during it. -/
theorem tcp_server_defined (n : Nat) (wait : Int) (nows : List Int) (acts : List TcpAct)
    (s : TcpServer) (hrun : run TcpServer.step (TcpServer.start n wait nows) acts = some s)
    (hsend : s.send.sys.undef = false) (hpool : s.pool.undef = false) :
    (s.epollFree = true → ∀ r ∈ s.send.sys.server.fds, ∀ ret now,
      ret.stored.length ≤ (s.conn r.conn).restRecvSize →
        ∃ s', s.step (.readable r ret now) = some s') ∧
    (∀ i a, s.pool.workers[i]? = some (.handling a) →
      ∃ m p, s.pool.inserted[a]? = some m ∧ m = emit m.hdr.pconn m.hdr.curSeq p ∧
        ∀ x, (∃ s', s.step (.process i x) = some s') ↔ x.LogsFor s.conn m.hdr p) ∧
    ∀ hdr, s.pool.delivered.filter (fun m => m.hdr == hdr) =
      (parse (under hdr s.received)).1.map (emit hdr.pconn hdr.curSeq) := by
  have hsound : s.Sound :=
    run_invariant_all TcpServer.step_sound (TcpServer.start_sound n wait nows) hrun
  have hdef : ¬ (s.send.sys.undef || s.pool.undef) = true := by
    rw [hsend, hpool]
    exact Bool.noConfusion
  refine ⟨fun hfree r hr ret now hfit => ?_, fun i a ha => ?_, hsound.tracked.handed⟩
  · obtain ⟨s', hs'⟩ := hsound.read_isSome hsend hpool hfree hr hfit now
    exact ⟨s', (if_neg hdef).trans ((if_pos ⟨hfree, hr, hfit⟩).trans hs')⟩
  · obtain ⟨m, p, hm, hemit, hprocess⟩ := hsound.process_iff hpool ha
    have hstep : ∀ x, s.step (.process i x) = s.process i x := fun x => if_neg hdef
    refine ⟨m, p, hm, hemit, fun x => ?_⟩
    rw [hstep]
    exact hprocess x

/-- A client sends a PING in two parts, and a worker pops it. -/
def pingPopped : List TcpAct :=
  [.send (.server (.accept 5 0)), .readable ⟨5, 0, true⟩ (.got [8, 0, 0]) 1,
    .readable ⟨5, 0, true⟩ (.got [0, 0, 0, 0, 0]) 2] ++
    List.replicate 5 (.pool (.producer 0)) ++ List.replicate 6 (.pool (.worker 0))

theorem tcp_server_defined_ping : ∃ s,
    run TcpServer.step (TcpServer.start 1 80 [0]) pingPopped = some s ∧
      ∃ s', s.step (.process 0 debugLog.ctx) = some s' := by
  obtain ⟨s, hrun, hsend, hpool, hworker, hinserted⟩ : ∃ s,
      run TcpServer.step (TcpServer.start 1 80 [0]) pingPopped = some s ∧
        s.send.sys.undef = false ∧ s.pool.undef = false ∧
        s.pool.workers[0]? = some (.handling 0) ∧
        s.pool.inserted[0]? = some (emit 0 2 (sendMsgWithNobody 0)) := ⟨_, rfl, rfl, rfl, rfl, rfl⟩
  obtain ⟨-, hprocess, -⟩ := tcp_server_defined 1 80 [0] pingPopped s hrun hsend hpool
  obtain ⟨m, p, hm, hemit, hiff⟩ := hprocess 0 0 hworker
  refine ⟨s, hrun, (hiff debugLog.ctx).mpr fun _ => ?_⟩
  -- the package is the PING
  obtain rfl := Option.some.inj (hinserted.symm.trans hm)
  have hping : sendMsgWithNobody 0 = p :=
    List.map_injective_iff.mpr (Option.some_injective _) (congrArg RecvMem.pkg hemit)
  rw [← hping]
  exact logsPkg_ping _

end Mgx
