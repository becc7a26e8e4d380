import Mgx.SendQueue

/-
  The threads around the send queue, statement by statement.

  `SendQueue` takes a turn of the walk, a call of `send_msg` and a call of
  `send_msg_handler` as one step each. Here each of their statements that touches
  what the threads share is a step.

  Correspondence (C++ ↔ Lean):
    where the send thread is in `send_msg_th_func`   ↔ `SendThAt`
    its next statement                               ↔ `SendThreads.sendThStep`
    where a thread is in `send_msg`                  ↔ `SenderAt`
    its next statement                               ↔ `SendThreads.senderStep`
    `send_msg_handler` up to the branch on
      `send_size`                                    ↔ `handlerSend`, `SendThreads.writable`
    where the epoll thread is in its last lines      ↔ `HandlerAt`
    its next statement                               ↔ `SendThreads.handlerStep`
    who holds `m_send_queue_mutex`                   ↔ `SendThreads.mutex`
    `sem_wait` returning with `EINTR`                ↔ `SendThAct.interrupt`

  The counter and the semaphore have no bound, as there (`Mgx.Comm`). A step of the
  server is taken at any time, so that a connection may also be
  closed, by another thread, while the handler runs. `it` is an index again, and
  `none` is `end()`. A run stops where the behaviour is undefined: a use of a
  deleted buffer, or of `end()`.

  What is proved: `send_run_statements`. What the steps of `SendQueue` do the
  statements do, where no thread comes between those of one step.
-/
namespace Mgx
open Runs

/-- Where the send thread is: in `sem_wait`; before the test of `m_send_list_cnt`; before `begin()`;
before the test of `it`; before the lock; with the lock, before the test of `m_cur_seq`; before
`m_send_list_cnt--` and before the `erase` of a message that is dropped; before the test of
`throw_send_cnt`; before `it++`; before `psend_buf` is set; before the `erase` and before
`m_send_list_cnt--` of a message that is sent; before `send`; before the unlock. -/
inductive SendThAt where
  | waiting
  | woken
  | starting
  | testing (it : Option Nat)
  | entering (i : Nat)
  | reading (i : Nat)
  | dropping (i : Nat)
  | erasing (i : Nat)
  | checking (i : Nat) (pconn : ConnId)
  | skipping (i : Nat)
  | installing (i : Nat) (pconn : ConnId)
  | taking (i : Nat) (pconn : ConnId)
  | counting (pconn : ConnId) (it : Option Nat)
  | sending (pconn : ConnId) (it : Option Nat)
  | leaving (it : Option Nat)
  deriving DecidableEq, Repr

/-- Where a thread is that sends: not in `send_msg`; before the lock; with the lock; with the
message pushed; with the counter incremented; with the semaphore posted. -/
inductive SenderAt (b : Build) where
  | idle
  | calling (m : SendBuf b)
  | locked (m : SendBuf b)
  | pushed
  | counted
  | posted

/-- Where the epoll thread is: not among the last statements of `send_msg_handler`; before
`sem_post`; before `throw_send_cnt = 0`; before `delete[]`; before `psend_mem_addr = nullptr`. -/
inductive HandlerAt where
  | idle
  | posting (c : ConnId)
  | clearing (c : ConnId)
  | deleting (c : ConnId)
  | nulling (c : ConnId)
  deriving DecidableEq, Repr

/-- A thread that can hold `m_send_queue_mutex`. -/
inductive SendHolder where
  | sendTh
  | sender (j : Nat)
  deriving DecidableEq, Repr

/-- The server, its send queue and the threads at it. `captured`, `given` and `deleted` are as in
`SendSys`. -/
structure SendThreads (b : Build) where
  server : Server
  sendList : List Addr
  sendListCnt : Int
  sendQueueSem : Nat
  mutex : Option SendHolder
  sendTh : SendThAt
  senders : List (SenderAt b)
  handler : HandlerAt
  captured : List MsgHdr
  given : List (SendBuf b)
  deleted : List Addr
  undef : Bool

variable {b : Build}

/-- `mgx_conn_t` at an address. -/
def SendThreads.conn (s : SendThreads b) (c : ConnId) : Conn := s.server.pool.conn c

/-- The iterator at position `i` of a list of length `n`. -/
def listIter (i n : Nat) : Option Nat := if i < n then some i else none

/-! ## The send thread -/

/-- The send thread from its `send` on: what `sendFirst` does after it has set `psend_buf`,
`rest_send_size` and `psend_mem_addr`. -/
def sendAttempt (c : Conn) (rs : List SendRet) : Option SendOut :=
  (sendUninterrupt c.restSendSize rs).map fun (n : Int) =>
    let call := ⟨c.psendBuf, n⟩
    if n > 0 then
      if n = c.restSendSize then
        ⟨{ c with throwSendCnt := 0, psendMemAddr := none }, call, c.psendMemAddr.toList, false⟩
      else
        let c := c.advanceSend n.toNat
        ⟨Conn.armOut { c with throwSendCnt := c.throwSendCnt + 1 }, call, [], false⟩
    else if n = 0 then ⟨{ c with throwSendCnt := 0 }, call, [], false⟩
    else if n = -1 then ⟨Conn.armOut { c with throwSendCnt := c.throwSendCnt + 1 }, call, [], false⟩
    else ⟨{ c with throwSendCnt := 0, psendMemAddr := none }, call, c.psendMemAddr.toList, false⟩

theorem sendFirst_eq (a : Addr) (body : Bytes) (c : Conn) (rs : List SendRet) :
    sendFirst b a body c rs = sendAttempt (Conn.install b a body c) rs := rfl

/-- The next statement of the send thread; `rs` is what `send` answers. -/
def SendThreads.sendThStep (s : SendThreads b) (rs : List SendRet) :
    SendThAt → Option (SendThreads b)
  | .waiting =>
    if 0 < s.sendQueueSem then
      some { s with sendTh := .woken, sendQueueSem := s.sendQueueSem - 1 }
    else none
  -- the counter is read without the mutex
  | .woken => some { s with sendTh := if s.sendListCnt > 0 then .starting else .waiting }
  | .starting => some { s with sendTh := .testing (listIter 0 s.sendList.length) }
  | .testing none => some { s with sendTh := .waiting }
  | .testing (some i) => some { s with sendTh := .entering i }
  | .entering i =>
    if s.mutex = none then some { s with sendTh := .reading i, mutex := some .sendTh } else none
  | .reading i =>
    s.sendList[i]?.bind fun a => s.given[a]?.bind fun m =>
      if a ∈ s.deleted then some { s with undef := true }
      else if !seqEq (s.conn m.hdr.pconn).curSeq m.hdr.curSeq then
        some { s with sendTh := .dropping i }
      else some { s with sendTh := .checking i m.hdr.pconn }
  | .dropping i => some { s with sendTh := .erasing i, sendListCnt := s.sendListCnt - 1 }
  | .erasing i =>
    -- `delete[]` of what `erase` returns, which is the next element
    if i < s.sendList.length then
      some { s with
        sendTh := .leaving (listIter i (s.sendList.eraseIdx i).length)
        sendList := s.sendList.eraseIdx i
        deleted := s.deleted ++ (s.sendList.eraseIdx i)[i]?.toList
        undef := (s.sendList.eraseIdx i)[i]?.isNone }
    else none
  | .checking i c =>
    -- the flag is read while `send_msg_handler` may be between its last statements
    some { s with sendTh := if (s.conn c).throwSendCnt > 0 then .skipping i else .installing i c }
  | .skipping i => some { s with sendTh := .leaving (listIter (i + 1) s.sendList.length) }
  | .installing i c =>
    s.sendList[i]?.bind fun a => s.given[a]?.bind fun m =>
      some { s with
        sendTh := .taking i c
        server := s.server.setConn c (Conn.install b a m.body (s.conn c)) }
  | .taking i c =>
    if i < s.sendList.length then
      some { s with
        sendTh := .counting c (listIter i (s.sendList.eraseIdx i).length)
        sendList := s.sendList.eraseIdx i }
    else none
  | .counting c it => some { s with sendTh := .sending c it, sendListCnt := s.sendListCnt - 1 }
  | .sending c it =>
    (sendAttempt (s.conn c) rs).map fun out =>
      { s with
        sendTh := .leaving it
        server := s.server.setConn c out.conn
        deleted := s.deleted ++ out.deleted }
  | .leaving it => some { s with sendTh := .testing it, mutex := none }

/-! ## The threads that send -/

/-- Thread `j` goes on to `p`. -/
def SendThreads.setSender (s : SendThreads b) (j : Nat) (p : SenderAt b) : SendThreads b :=
  { s with senders := s.senders.set j p }

/-- The next statement of a thread in `send_msg`. -/
def SendThreads.senderStep (s : SendThreads b) (j : Nat) : SenderAt b → Option (SendThreads b)
  | .idle => none
  | .calling m =>
    if s.mutex = none then some { s.setSender j (.locked m) with mutex := some (.sender j) }
    else none
  | .locked m =>
    some { s.setSender j .pushed with
      sendList := s.sendList ++ [s.given.length]
      given := s.given ++ [m] }
  | .pushed => some { s.setSender j .counted with sendListCnt := s.sendListCnt + 1 }
  | .counted => some { s.setSender j .posted with sendQueueSem := s.sendQueueSem + 1 }
  | .posted => some { s.setSender j .idle with mutex := none }

/-! ## The write handler -/

/-- `send_msg_handler` up to the branch on `send_size`: the connection, and whether it goes on to
`sem_post`. -/
def handlerSend (c : Conn) (rs : List SendRet) : Option (Conn × Bool) :=
  (sendUninterrupt c.restSendSize rs).map fun (n : Int) =>
    if n > 0 then
      if n = c.restSendSize then (c.disarmOut, true) else (c.advanceSend n.toNat, false)
    else if n = -1 then (c, false)
    else (c, true)

/-- The epoll thread calls `send_msg_handler`. -/
def SendThreads.writable (s : SendThreads b) (c : ConnId) (rs : List SendRet) :
    Option (SendThreads b) :=
  if ∃ a ∈ (s.conn c).psendMemAddr, a ∈ s.deleted then some { s with undef := true }
  else (handlerSend (s.conn c) rs).map fun (x, done) =>
    { s with
      server := s.server.setConn c x
      handler := if done then .posting c else .idle }

/-- The next statement of the epoll thread in `send_msg_handler`. -/
def SendThreads.handlerStep (s : SendThreads b) : HandlerAt → Option (SendThreads b)
  | .idle => none
  | .posting c => some { s with handler := .clearing c, sendQueueSem := s.sendQueueSem + 1 }
  | .clearing c =>
    some { s with
      handler := .deleting c
      server := s.server.setConn c { s.conn c with throwSendCnt := 0 } }
  | .deleting c =>
    if ∃ a ∈ (s.conn c).psendMemAddr, a ∈ s.deleted then some { s with undef := true }
    else some { s with
      handler := .nulling c
      deleted := s.deleted ++ (s.conn c).psendMemAddr.toList }
  | .nulling c =>
    some { s with
      handler := .idle
      server := s.server.setConn c { s.conn c with psendMemAddr := none } }

/-! ## Runs -/

/-- What can happen. -/
inductive SendThAct (b : Build) where
  | server (a : ServerAct)
  | capture (c : ConnId)
  | call (j : Nat) (m : SendBuf b)
  | sender (j : Nat)
  | sendTh (rs : List SendRet)
  | interrupt
  | writable (c : ConnId) (rs : List SendRet)
  | handler

/-- A statement of the send thread. -/
def SendThAct.ofSendTh : SendThAct b → Bool
  | .sendTh _ => true
  | _ => false

/-- One step. As in `SendSys`, a header is captured for a connection in use, and a message is sent
under a header captured before. -/
def SendThreads.step (s : SendThreads b) (act : SendThAct b) : Option (SendThreads b) :=
  if s.undef then none
  else match act with
    | .server a => (s.server.step a).map fun server =>
        { s with server := server, deleted := s.deleted ++ s.server.deletes a }
    | .capture c =>
      if c ∈ s.server.fds.map Reg.conn then
        some { s with captured := ⟨c, (s.conn c).curSeq⟩ :: s.captured }
      else none
    | .call j m => s.senders[j]?.bind fun p =>
        match p with
        | .idle => if m.hdr ∈ s.captured then some (s.setSender j (.calling m)) else none
        | _ => none
    | .sender j => s.senders[j]?.bind (s.senderStep j)
    | .sendTh rs => s.sendThStep rs s.sendTh
    | .interrupt => if s.sendTh = .waiting then some { s with sendTh := .woken } else none
    | .writable c rs =>
      if s.handler = .idle ∧ c ∈ s.server.pool.pconnsQueue then s.writable c rs else none
    | .handler => s.handlerStep s.handler

/-- `n` threads that send. -/
def SendThreads.start (b : Build) (wait : Int) (nows : List Int) (n : Nat) : SendThreads b where
  server := Server.start wait nows
  sendList := []
  sendListCnt := 0
  sendQueueSem := 0
  mutex := none
  sendTh := .waiting
  senders := List.replicate n .idle
  handler := .idle
  captured := []
  given := []
  deleted := []
  undef := false

/-! ## The steps of `SendQueue` -/

/-- Where the send thread is between two turns of its loop. -/
def Iter.place : Iter → SendThAt
  | .idle => .waiting
  | .elem i => .testing (some i)
  | .past => .testing none

/-- A state of `SendQueue` as one of the threads: nobody is in `send_msg` or `send_msg_handler`, and
the send thread is between two turns. -/
def SendSys.threads (s : SendSys b) (n : Nat) : SendThreads b where
  server := s.server
  sendList := s.sendList
  sendListCnt := s.sendListCnt
  sendQueueSem := s.sendQueueSem
  mutex := none
  sendTh := s.it.place
  senders := List.replicate n .idle
  handler := .idle
  captured := s.captured
  given := s.given
  deleted := s.deleted
  undef := s.undef

@[simp] theorem Iter.place_idle : Iter.idle.place = .waiting := rfl
@[simp] theorem Iter.place_elem (i : Nat) : (Iter.elem i).place = .testing (some i) := rfl
@[simp] theorem Iter.place_past : Iter.past.place = .testing none := rfl

@[simp] theorem iterAt_place (i n : Nat) : (iterAt i n).place = .testing (listIter i n) := by
  unfold iterAt listIter
  split
  · rfl
  · rfl

/-- `send_msg_handler` is its part up to the branch, and then its last statements. -/
theorem sendMsgHandler_eq {c : Conn} {rs : List SendRet} {out : SendOut}
    (h : sendMsgHandler c rs = some out) : ∃ x done, handlerSend c rs = some (x, done) ∧
      x.psendMemAddr = c.psendMemAddr ∧ out.posted = done ∧
      (done = true → out.conn = { x with throwSendCnt := 0, psendMemAddr := none } ∧
        out.deleted = x.psendMemAddr.toList) ∧
      (done = false → out.conn = x ∧ out.deleted = []) := by
  obtain ⟨n, hn, rfl⟩ := Option.map_eq_some_iff.mp h
  unfold handlerSend
  rw [hn]
  dsimp only [Option.map_some]
  split
  · split
    · exact ⟨_, true, rfl, rfl, rfl, fun _ => ⟨rfl, rfl⟩, fun hd => (by cases hd)⟩
    · exact ⟨_, false, rfl, rfl, rfl, fun hd => (by cases hd), fun _ => ⟨rfl, rfl⟩⟩
  · split
    · exact ⟨_, false, rfl, rfl, rfl, fun hd => (by cases hd), fun _ => ⟨rfl, rfl⟩⟩
    · exact ⟨_, true, rfl, rfl, rfl, fun _ => ⟨rfl, rfl⟩, fun hd => (by cases hd)⟩

theorem Server.setConn_setConn (s : Server) (c : ConnId) (x y : Conn) :
    (s.setConn c x).setConn c y = s.setConn c y := by
  simp only [Server.setConn, Pool.setConn, Function.update_idem]

/-- A call of `send_msg` is the statements of one thread. -/
theorem SendSys.sendMsg_statements {s : SendSys b} {m : SendBuf b} (hdef : s.undef = false)
    (hm : m.hdr ∈ s.captured) (n : Nat) :
    run SendThreads.step (s.threads (n + 1)) (.call 0 m :: List.replicate 5 (.sender 0)) =
      some ((s.sendMsg m).threads (n + 1)) := by
  simp [run, SendThreads.step, SendThreads.senderStep, SendThreads.setSender, SendSys.threads,
    SendSys.sendMsg, hdef, hm, List.replicate]

/-- So is `sem_wait` with what follows it up to the walk. -/
theorem SendSys.wake_statements {s : SendSys b} (hdef : s.undef = false) (hit : s.it = .idle)
    (hsem : 0 < s.sendQueueSem) (n : Nat) :
    ∃ acts, run SendThreads.step (s.threads n) acts = some (s.wake.threads n) := by
  by_cases hcnt : s.sendListCnt > 0
  · refine ⟨List.replicate 3 (.sendTh []), ?_⟩
    simp [run, SendThreads.step, SendThreads.sendThStep, SendSys.threads, SendSys.wake, hdef, hit,
      hsem, hcnt, List.replicate]
  · refine ⟨List.replicate 2 (.sendTh []), ?_⟩
    simp [run, SendThreads.step, SendThreads.sendThStep, SendSys.threads, SendSys.wake, hdef, hit,
      hsem, hcnt, List.replicate]

theorem SendThreads.step_sendTh {s : SendThreads b} (hdef : s.undef = false) (rs : List SendRet) :
    s.step (.sendTh rs) = s.sendThStep rs s.sendTh := if_neg (by simp [hdef])

/-- A turn of the loop up to the test of `m_cur_seq`. -/
theorem SendSys.turn_statements {s : SendSys b} {i a : Nat} {m : SendBuf b} (rs : List SendRet)
    (hdef : s.undef = false) (hit : s.it = .elem i) (ha : s.sendList[i]? = some a)
    (hm : s.given[a]? = some m) (hdel : a ∉ s.deleted) (n : Nat) :
    run SendThreads.step (s.threads n) (List.replicate 3 (.sendTh rs)) =
      some { s.threads n with
        mutex := some .sendTh
        sendTh := if seqEq (s.conn m.hdr.pconn).curSeq m.hdr.curSeq then .checking i m.hdr.pconn
          else .dropping i } := by
  unfold SendSys.conn
  cases hseq : seqEq (s.server.pool.conn m.hdr.pconn).curSeq m.hdr.curSeq with
  | false =>
    simp [run, SendThreads.step, SendThreads.sendThStep, SendThreads.conn, SendSys.threads,
      List.replicate, hdef, hit, ha, hm, hdel, hseq]
  | true =>
    simp [run, SendThreads.step, SendThreads.sendThStep, SendThreads.conn, SendSys.threads,
      List.replicate, hdef, hit, ha, hm, hdel, hseq]

/-- The rest of a turn in which the message is sent. -/
theorem SendThreads.send_statements {s : SendThreads b} {i a : Nat} {c : ConnId} {m : SendBuf b}
    {rs : List SendRet} {out : SendOut} (hdef : s.undef = false) (hth : s.sendTh = .checking i c)
    (ha : s.sendList[i]? = some a) (hm : s.given[a]? = some m)
    (hidle : ¬ (s.conn c).throwSendCnt > 0)
    (hout : sendFirst b a m.body (s.conn c) rs = some out) :
    run step s (List.replicate 6 (.sendTh rs)) = some { s with
      mutex := none
      sendTh := .testing (listIter i (s.sendList.eraseIdx i).length)
      server := s.server.setConn c out.conn
      sendList := s.sendList.eraseIdx i
      sendListCnt := s.sendListCnt - 1
      deleted := s.deleted ++ out.deleted } := by
  have hi : i < s.sendList.length := (List.getElem?_eq_some_iff.mp ha).1
  -- the states between the six statements
  let s₁ := { s with sendTh := .installing i c }
  let s₂ := { s₁ with
    sendTh := .taking i c
    server := s.server.setConn c (Conn.install b a m.body (s.conn c)) }
  let it := listIter i (s.sendList.eraseIdx i).length
  let s₃ := { s₂ with sendTh := .counting c it, sendList := s.sendList.eraseIdx i }
  let s₄ := { s₃ with sendTh := .sending c it, sendListCnt := s.sendListCnt - 1 }
  let s₅ := { s₄ with
    sendTh := .leaving it
    server := s.server.setConn c out.conn
    deleted := s.deleted ++ out.deleted }
  let s₆ := { s₅ with sendTh := .testing it, mutex := none }
  have h₁ : s.step (.sendTh rs) = some s₁ := by
    rw [step_sendTh hdef, hth, sendThStep, if_neg hidle]
  have h₂ : s₁.step (.sendTh rs) = some s₂ := by
    rw [step_sendTh (s := s₁) hdef]
    show (s.sendList[i]?.bind fun a => s.given[a]?.bind fun m => _) = _
    rw [ha, Option.bind_some, hm]
    rfl
  have h₃ : s₂.step (.sendTh rs) = some s₃ := by
    rw [step_sendTh (s := s₂) hdef]
    exact if_pos hi
  have h₄ : s₃.step (.sendTh rs) = some s₄ := step_sendTh (s := s₃) hdef rs
  have h₅ : s₄.step (.sendTh rs) = some s₅ := by
    have hconn : s₄.conn c = Conn.install b a m.body (s.conn c) := Pool.setConn_self ..
    have hset : s₄.server.setConn c out.conn = s.server.setConn c out.conn :=
      Server.setConn_setConn ..
    rw [step_sendTh (s := s₄) hdef]
    show (sendAttempt (s₄.conn c) rs).map (fun out => ({ s₄ with
      sendTh := .leaving it
      server := s₄.server.setConn c out.conn
      deleted := s.deleted ++ out.deleted } : SendThreads b)) = _
    rw [hconn, ← sendFirst_eq, hout, Option.map_some, hset]
  have h₆ : s₅.step (.sendTh rs) = some s₆ := step_sendTh (s := s₅) hdef rs
  exact run_cons.mpr ⟨s₁, h₁, run_cons.mpr ⟨s₂, h₂, run_cons.mpr ⟨s₃, h₃, run_cons.mpr ⟨s₄, h₄,
    run_cons.mpr ⟨s₅, h₅, run_cons.mpr ⟨s₆, h₆, rfl⟩⟩⟩⟩⟩⟩

/-- One turn of the loop is its statements. -/
theorem SendSys.sendLoop_statements {s s' : SendSys b} {rs : List SendRet} (hdef : s.undef = false)
    (hs : s.sendLoop rs = some s') (hdef' : s'.undef = false) (n : Nat) :
    ∃ acts, run SendThreads.step (s.threads n) acts = some (s'.threads n) := by
  obtain ⟨hit, rfl⟩ | ⟨i, a, m, hit, ha, hm, hcase⟩ := SendSys.sendLoop_cases hs
  · refine ⟨[.sendTh rs], ?_⟩
    simp [run, SendThreads.step, SendThreads.sendThStep, SendSys.threads, hdef, hit]
  · have hi : i < s.sendList.length := (List.getElem?_eq_some_iff.mp ha).1
    -- a deleted buffer would have stopped the run
    have hdel : a ∉ s.deleted := by
      intro hin
      have huaf : s.sendLoop rs = some { s with undef := true } := by
        simp [SendSys.sendLoop, hit, ha, hm, hin]
      obtain rfl := Option.some.inj (huaf.symm.trans hs)
      cases hdef'
    have hturn := SendSys.turn_statements rs hdef hit ha hm hdel n
    rcases hcase with ⟨hin, -⟩ | ⟨hseq, rfl⟩ | ⟨hseq, hbusy, rfl⟩ | ⟨hseq, hidle, hsend⟩
    · exact absurd hin hdel
    · refine ⟨List.replicate 3 (.sendTh rs) ++ List.replicate 3 (.sendTh rs),
        run_append.mpr ⟨_, hturn, ?_⟩⟩
      have hnext : (s.sendList.eraseIdx i)[i]?.isNone = false := hdef'
      simp [run, SendThreads.step, SendThreads.sendThStep, SendSys.threads, SendSys.dropStale,
        List.replicate, hdef, hseq, hi, hnext]
    · refine ⟨List.replicate 3 (.sendTh rs) ++ List.replicate 3 (.sendTh rs),
        run_append.mpr ⟨_, hturn, ?_⟩⟩
      unfold SendSys.conn at hbusy
      simp [run, SendThreads.step, SendThreads.sendThStep, SendThreads.conn, SendSys.threads,
        SendSys.skipBusy, List.replicate, hdef, hseq, hbusy]
    · refine ⟨List.replicate 3 (.sendTh rs) ++ List.replicate 6 (.sendTh rs),
        run_append.mpr ⟨_, hturn, ?_⟩⟩
      obtain ⟨out, hout, rfl⟩ := Option.map_eq_some_iff.mp hsend
      rw [if_pos hseq]
      have hfree : ¬ (s.conn m.hdr.pconn).throwSendCnt > 0 := Int.not_lt.mpr hidle
      have hrest := SendThreads.send_statements (s := { s.threads n with
        mutex := some .sendTh
        sendTh := .checking i m.hdr.pconn }) hdef rfl ha hm hfree hout
      rw [hrest]
      simp [SendSys.threads]

theorem SendThreads.step_handler {s : SendThreads b} (hdef : s.undef = false) :
    s.step .handler = s.handlerStep s.handler := if_neg (by simp [hdef])

/-- The last statements of `send_msg_handler`, nobody coming between. -/
theorem SendThreads.done_statements {s : SendThreads b} {c : ConnId} {x : Conn}
    (hdef : s.undef = false) (hlive : ∀ a, x.psendMemAddr = some a → a ∉ s.deleted) :
    run step { s with server := s.server.setConn c x, handler := .posting c }
      (List.replicate 4 .handler) = some { s with
        server := s.server.setConn c { x with throwSendCnt := 0, psendMemAddr := none }
        handler := .idle
        sendQueueSem := s.sendQueueSem + 1
        deleted := s.deleted ++ x.psendMemAddr.toList } := by
  let x' : Conn := { x with throwSendCnt := 0 }
  let s₀ := { s with server := s.server.setConn c x, handler := .posting c }
  let s₁ := { s₀ with handler := .clearing c, sendQueueSem := s.sendQueueSem + 1 }
  let s₂ := { s₁ with handler := .deleting c, server := s.server.setConn c x' }
  let s₃ := { s₂ with handler := .nulling c, deleted := s.deleted ++ x.psendMemAddr.toList }
  let s₄ := { s₃ with
    handler := .idle
    server := s.server.setConn c { x with throwSendCnt := 0, psendMemAddr := none } }
  have h₁ : s₀.step .handler = some s₁ := step_handler (s := s₀) hdef
  have h₂ : s₁.step .handler = some s₂ := by
    have hconn : s₁.conn c = x := Pool.setConn_self ..
    rw [step_handler (s := s₁) hdef]
    show some ({ s₁ with
      handler := .deleting c
      server := (s.server.setConn c x).setConn c { s₁.conn c with throwSendCnt := 0 } } :
        SendThreads b) = _
    rw [Server.setConn_setConn, hconn]
  have hconn : s₂.conn c = x' := Pool.setConn_self ..
  have h₃ : s₂.step .handler = some s₃ := by
    rw [step_handler (s := s₂) hdef]
    show (if ∃ a ∈ (s₂.conn c).psendMemAddr, a ∈ s.deleted then _ else some ({ s₂ with
      handler := .nulling c
      deleted := s.deleted ++ (s₂.conn c).psendMemAddr.toList } : SendThreads b)) = _
    rw [hconn, if_neg]
    rintro ⟨a, ha, hin⟩
    exact hlive a ha hin
  have h₄ : s₃.step .handler = some s₄ := by
    rw [step_handler (s := s₃) hdef]
    show some ({ s₃ with
      handler := .idle
      server := (s.server.setConn c x').setConn c { s₂.conn c with psendMemAddr := none } } :
        SendThreads b) = _
    rw [Server.setConn_setConn, hconn]
  exact run_cons.mpr ⟨s₁, h₁, run_cons.mpr ⟨s₂, h₂, run_cons.mpr ⟨s₃, h₃,
    run_cons.mpr ⟨s₄, h₄, rfl⟩⟩⟩⟩

/-- A call of `send_msg_handler` is its statements. -/
theorem SendSys.writable_statements {s s' : SendSys b} {c : ConnId} {rs : List SendRet}
    (hdef : s.undef = false) (hc : c ∈ s.server.pool.pconnsQueue)
    (hs : s.writable c rs = some s') (hdef' : s'.undef = false) (n : Nat) :
    ∃ acts, run SendThreads.step (s.threads n) acts = some (s'.threads n) := by
  unfold SendSys.writable at hs
  split at hs
  · obtain rfl := (Option.some.inj hs).symm
    cases hdef'
  · next huaf =>
    obtain ⟨out, hout, rfl⟩ := Option.map_eq_some_iff.mp hs
    obtain ⟨x, done, hsend, hmem, hposted, hdone, hpart⟩ := sendMsgHandler_eq hout
    have hlive : ∀ a, (s.conn c).psendMemAddr = some a → a ∉ s.deleted :=
      fun a ha hin => huaf ⟨a, ha, hin⟩
    have huaf' : ¬ ∃ a ∈ (s.server.pool.conn c).psendMemAddr, a ∈ s.deleted := huaf
    have hfirst : (s.threads n).step (.writable c rs) = some { s.threads n with
        server := s.server.setConn c x
        handler := if done then .posting c else .idle } := by
      unfold SendSys.conn at hsend
      simp only [SendThreads.step, SendThreads.writable, SendThreads.conn, SendSys.threads, hdef,
        hc, hsend, Bool.false_eq_true, if_false, and_self, if_true, Option.map_some, if_neg huaf']
    cases done with
    | false =>
      obtain ⟨hconn, hdel⟩ := hpart rfl
      refine ⟨[.writable c rs], run_cons.mpr ⟨_, hfirst, ?_⟩⟩
      simp [SendSys.threads, hconn, hdel, hposted]
    | true =>
      obtain ⟨hconn, hdel⟩ := hdone rfl
      refine ⟨.writable c rs :: List.replicate 4 .handler, run_cons.mpr ⟨_, hfirst, ?_⟩⟩
      rw [← hmem] at hlive
      have hrest := SendThreads.done_statements (s := s.threads n) (c := c) hdef hlive
      rw [if_pos rfl]
      refine hrest.trans ?_
      simp [SendSys.threads, hconn, hdel, hposted]

/-- Every step of `SendQueue` is a run of statements. -/
theorem SendSys.step_statements {s s' : SendSys b} {act : SendAct b} (hs : s.step act = some s')
    (hdef' : s'.undef = false) (n : Nat) :
    ∃ acts, run SendThreads.step (s.threads (n + 1)) acts = some (s'.threads (n + 1)) := by
  unfold SendSys.step at hs
  split at hs
  case isTrue => simp at hs
  case isFalse hdef =>
  rw [Bool.not_eq_true] at hdef
  cases act with
  | server a =>
    obtain ⟨server, hserver, rfl⟩ := Option.map_eq_some_iff.mp hs
    refine ⟨[.server a], ?_⟩
    simp [run, SendThreads.step, SendSys.threads, hdef, hserver]
  | capture c =>
    obtain ⟨hc, hs⟩ := Option.ite_none_right_eq_some.mp hs
    obtain rfl := (Option.some.inj hs).symm
    refine ⟨[.capture c], ?_⟩
    have hstep : (s.threads (n + 1)).step (.capture c) = some ((s.capture c).threads (n + 1)) := by
      rw [SendThreads.step, if_neg (by simp [SendSys.threads, hdef])]
      exact if_pos hc
    exact run_cons.mpr ⟨_, hstep, rfl⟩
  | sendMsg m =>
    obtain ⟨hm, hs⟩ := Option.ite_none_right_eq_some.mp hs
    obtain rfl := (Option.some.inj hs).symm
    exact ⟨_, SendSys.sendMsg_statements hdef hm n⟩
  | wake =>
    obtain ⟨⟨hit, hsem⟩, hs⟩ := Option.ite_none_right_eq_some.mp hs
    obtain rfl := (Option.some.inj hs).symm
    exact SendSys.wake_statements hdef hit hsem _
  | sendLoop rs => exact SendSys.sendLoop_statements hdef hs hdef' _
  | writable c rs =>
    obtain ⟨hc, hs⟩ := Option.ite_none_right_eq_some.mp hs
    exact SendSys.writable_statements hdef hc hs hdef' _

theorem SendSys.run_defined {s s' : SendSys b} {acts : List (SendAct b)}
    (hrun : run SendSys.step s acts = some s') (hdef' : s'.undef = false) : s.undef = false := by
  cases acts with
  | nil =>
    obtain rfl := Option.some.inj hrun
    exact hdef'
  | cons act acts =>
    obtain ⟨m, hm, -⟩ := run_cons.mp hrun
    unfold SendSys.step at hm
    split at hm
    · cases hm
    · next hdef => exact Bool.not_eq_true _ ▸ hdef

/-- **Two levels.** Every run of `SendQueue` that stays defined is a run of the threads, statement
by statement. -/
theorem send_run_statements {acts : List (SendAct b)} (n : Nat) : ∀ {s s' : SendSys b},
    run SendSys.step s acts = some s' → s'.undef = false →
    ∃ acts', run SendThreads.step (s.threads (n + 1)) acts' = some (s'.threads (n + 1)) := by
  induction acts with
  | nil =>
    intro s s' hrun _
    obtain rfl := Option.some.inj hrun
    exact ⟨[], rfl⟩
  | cons act acts ih =>
    intro s s' hrun hdef'
    obtain ⟨m, hm, hrest⟩ := run_cons.mp hrun
    obtain ⟨first, hfirst⟩ := SendSys.step_statements hm (SendSys.run_defined hrest hdef') n
    obtain ⟨rest, hrest⟩ := ih hrest hdef'
    exact ⟨first ++ rest, run_append.mpr ⟨_, hfirst, hrest⟩⟩

end Mgx
