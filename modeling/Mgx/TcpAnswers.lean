import Mgx.TcpServer

/-
  What the server in TCP mode is for.

  A client sends packages and reads what comes back as packages. `Mgx.TcpServer`
  is everything in between; here is what the client may count on.

  `Replied` relates the messages given to `send_msg` with the packages that the
  workers are done with. It is kept by every step. What becomes of the messages is
  the business of `Mgx.SendWire`, and needs its condition.

  What is proved: `tcp_server_answers`. What the client was sent can be read as
  packages; they are answers to packages it sent, to each at most one. With a
  single worker they come in order. Once the server has nothing to do, a client
  that is still there has all its answers.
-/
namespace Mgx
open CMem Journal Runs

/-! ## The packages that are done with -/

section
variable {μ : Type} {s s' : ThPool μ}

/-- The messages that have been handled, in the order in which that was finished. -/
def ThPool.done (s : ThPool μ) : List μ := (s.handled.map Prod.snd).filterMap (s.inserted[·]?)

/-- The entries of a list, one after the other. -/
theorem filterMap_getElem?_range {α : Type} (l : List α) :
    (List.range l.length).filterMap (l[·]?) = l := by
  induction l with
  | nil => rfl
  | cons a l ih =>
    have hhead : (a :: l)[0]? = some a := rfl
    rw [List.length_cons, List.range_succ_eq_map, List.filterMap_cons, hhead, List.filterMap_map]
    exact congrArg (a :: ·) ih

theorem ThPool.Accounted.done_perm (h : s.Accounted) :
    (s.done ++ (s.hands ++ s.queue).filterMap (s.inserted[·]?)).Perm s.inserted := by
  have hperm := h.filterMap (s.inserted[·]?)
  rwa [filterMap_getElem?_range, ledger, List.filterMap_append] at hperm

theorem ThPool.Accounted.done_subset (h : s.Accounted) : s.done ⊆ s.delivered := by
  intro m hm
  apply List.mem_append_left
  exact h.done_perm.subset (List.mem_append_left _ hm)

/-- A single worker is done with the first so many messages. -/
theorem ThPool.InTurn.done_prefix (h : s.InTurn) : s.done <+: s.delivered := by
  have hfirst : s.handled.map Prod.snd <+: List.range s.inserted.length := ⟨_, h.2⟩
  have hdone := hfirst.filterMap (s.inserted[·]?)
  rw [filterMap_getElem?_range] at hdone
  exact hdone.trans (List.prefix_append _ _)

theorem ThPool.Finishes.done {i : Nat} {a : Addr} {m : μ} (h : s.Finishes s' i a)
    (hm : s.inserted[a]? = some m) : s'.done = s.done ++ [m] := by
  unfold ThPool.done
  rw [h.handled, h.inserted, List.map_append, List.filterMap_append]
  simp [hm]

/-- A push changes nothing about them. -/
theorem ThPool.Moves.done (h : s.Moves s') (hacc : s.Accounted) : s'.done = s.done := by
  have hlt : ∀ a ∈ s.handled.map Prod.snd, a < s.inserted.length := by
    intro a ha
    exact List.mem_range.mp (hacc.subset (List.mem_append_left _ ha))
  unfold ThPool.done
  rw [h.handled]
  apply List.filterMap_congr
  intro a ha
  obtain ⟨hinserted, -⟩ | ⟨hinserted, -⟩ | ⟨m, hinserted, -⟩ := h.moves
  · rw [hinserted]
  · rw [hinserted]
  · rw [hinserted, List.getElem?_append_left (hlt a ha)]

end

/-! ## What is given to `send_msg` -/

/-- The payloads of the messages for the occupancy `hdr`. -/
def payloadsFor (hdr : MsgHdr) (given : List (SendBuf .tcp)) : List Bytes :=
  (given.filter fun buf => buf.hdr == hdr).map SendBuf.payload

/-- The answers to the packages of the occupancy `hdr`. -/
def answersFor (hdr : MsgHdr) (done : List RecvMem) : List (Nat × Bytes) :=
  (done.filter fun m => m.hdr == hdr).filterMap RecvMem.answer

/-- An answer as it is sent. -/
def answerPackage (x : Nat × Bytes) : Bytes := package x.1 x.2

/-- The messages given to `send_msg` are answers to packages that are done with, and all of them for
the occupancies that last. -/
structure Replied (conn : ConnId → Conn) (given : List (SendBuf .tcp)) (done : List RecvMem) :
    Prop where
  sub : ∀ hdr, (payloadsFor hdr given).Sublist ((answersFor hdr done).map answerPackage)
  all : ∀ hdr : MsgHdr, (conn hdr.pconn).curSeq = hdr.curSeq →
    payloadsFor hdr given = (answersFor hdr done).map answerPackage

section
variable {given bufs : List (SendBuf .tcp)} {done handed : List RecvMem} {m : RecvMem}
  {received : List (MsgHdr × Bytes)}

theorem payloadsFor_append (hdr : MsgHdr) : payloadsFor hdr (given ++ bufs) =
    payloadsFor hdr given ++ payloadsFor hdr bufs := by
  simp [payloadsFor]

theorem answersFor_append (hdr : MsgHdr) : answersFor hdr (done ++ [m]) =
    answersFor hdr done ++ answersFor hdr [m] := by
  simp [answersFor]

/-- A package is processed. -/
theorem Replied.reply {conn : ConnId → Conn} (h : Replied conn given done)
    (hm : RepliesTo conn m bufs) : Replied conn (given ++ bufs) (done ++ [m]) := by
  have hself : payloadsFor m.hdr bufs = bufs.map SendBuf.payload ∧
      answersFor m.hdr [m] = m.answer.toList := by
    constructor
    · have hfilter : bufs.filter (fun buf => buf.hdr == m.hdr) = bufs := by
        apply List.filter_eq_self.mpr
        intro buf hbuf
        rw [hm.hdr buf hbuf, beq_self_eq_true]
      rw [payloadsFor, hfilter]
    · cases hanswer : m.answer <;> simp [answersFor, hanswer]
  have hother : ∀ hdr, m.hdr ≠ hdr → payloadsFor hdr bufs = [] ∧ answersFor hdr [m] = [] := by
    intro hdr hne
    constructor
    · have hfilter : bufs.filter (fun buf => buf.hdr == hdr) = [] := by
        apply List.filter_eq_nil_iff.mpr
        intro buf hbuf
        rw [hm.hdr buf hbuf]
        simpa using hne
      rw [payloadsFor, hfilter, List.map_nil]
    · simp [answersFor, hne]
  constructor
  · intro hdr
    rw [payloadsFor_append, answersFor_append, List.map_append]
    apply (h.sub hdr).append
    by_cases hhdr : m.hdr = hdr
    · rw [← hhdr, hself.1, hself.2]
      exact hm.sub
    · rw [(hother hdr hhdr).1]
      exact List.nil_sublist _
  · intro hdr hcur
    rw [payloadsFor_append, answersFor_append, List.map_append, h.all hdr hcur]
    congr 1
    by_cases hhdr : m.hdr = hdr
    · subst hhdr
      rw [hself.1, hself.2]
      exact hm.all hcur
    · rw [(hother hdr hhdr).1, (hother hdr hhdr).2]
      rfl

/-- Connections are handed out and given up. -/
theorem Replied.goes {s s' : Server} (h : Replied s.pool.conn given done)
    (htracked : Tracked s.pool.conn (· ∈ s.pool.pconnsQueue) s.InUse received handed)
    (hdone : done ⊆ handed) (hgoes : s.Goes s') : Replied s'.pool.conn given done := by
  refine ⟨h.sub, fun hdr hcur => ?_⟩
  rcases hgoes.conns hdr.pconn with ⟨hsame, -⟩ | ⟨-, hseq⟩
  · exact h.all hdr (hsame.curSeq.symm.trans hcur)
  · -- an occupancy that has just begun, of which nothing was received
    have hnone : under hdr received = [] := htracked.ahead fun hknown => hcur ▸ hseq hknown
    have hhanded : handed.filter (fun m => m.hdr == hdr) = [] := by
      rw [htracked.handed hdr, hnone, parse_short (by decide)]
      rfl
    have hempty : answersFor hdr done = [] := by
      have hfilter : done.filter (fun m => m.hdr == hdr) = [] := by
        apply List.filter_eq_nil_iff.mpr
        exact fun m hm => List.filter_eq_nil_iff.mp hhanded m (hdone hm)
      rw [answersFor, hfilter, List.filterMap_nil]
    have hsub := h.sub hdr
    rw [hempty, List.map_nil] at hsub ⊢
    exact List.sublist_nil.mp hsub

end

/-! ## Every step -/

/-- A call pushes nothing yet. -/
theorem ThPool.call_done {μ : Type} (msgs : List μ) : ∀ {s s' : ThPool μ}, s.Accounted →
    run step s (msgs.map (.call 0)) = some s' → s'.done = s.done := by
  induction msgs with
  | nil =>
    intro s s' _ hs
    obtain rfl := Option.some.inj hs
    rfl
  | cons m msgs ih =>
    intro s s' hacc hs
    obtain ⟨s₁, hstep, hs⟩ := run_cons.mp hs
    obtain ⟨i, a, hact, -⟩ | hmoves := step_moves hstep
    · cases hact
    · rw [ih (hacc.step hstep) hs, hmoves.done hacc]

/-- A step of the pool that is allowed is not the end of a handler. -/
theorem TcpServer.moves_of_pool {s : TcpServer} {act : PoolAct RecvMem} {pool : ThPool RecvMem}
    (hmay : s.mayPool act = true) (hs : s.pool.step act = some pool) : s.pool.Moves pool := by
  obtain ⟨i, a, rfl, hdone⟩ | hmoves := ThPool.step_moves hs
  · simp [mayPool, ThPool.handledBy, hdone.handling] at hmay
  · exact hmoves

/-- The end of a handler is that of the message processed. -/
theorem TcpServer.Processes.done {s s' : TcpServer} {i : Nat} {m : RecvMem}
    {bufs : List (SendBuf .tcp)} (h : s.Processes s' i m bufs) :
    s'.pool.done = s.pool.done ++ [m] := by
  obtain ⟨a, ha, hm⟩ := h.pushed
  exact (ThPool.finishes_of_handling (ThPool.handledBy_eq ha) h.pool).done hm

theorem foldl_sendMsg_given {b : Build} (bufs : List (SendBuf b)) : ∀ s : SendSys b,
    (bufs.foldl SendSys.sendMsg s).given = s.given ++ bufs := by
  induction bufs with
  | nil => exact fun s => (List.append_nil _).symm
  | cons buf bufs ih =>
    intro s
    rw [List.foldl_cons, ih]
    exact List.append_assoc s.given [buf] bufs

/-- The server with its replies. -/
structure TcpServer.Serving (s : TcpServer) : Prop where
  sound : s.Sound
  replied : Replied s.conn s.send.sys.given s.pool.done

/-- Every step keeps the invariant. -/
theorem TcpServer.step_serving (s : TcpServer) (act : TcpAct) (s' : TcpServer) (h : s.Serving)
    (hs : s.step act = some s') : s'.Serving := by
  refine ⟨s.step_sound act s' h.sound hs, ?_⟩
  obtain ⟨-, -, ⟨r, ret, now, hr, hfit, hs⟩ | ⟨a, send, -, hmay, hsend, rfl⟩ |
    ⟨a, pool, hmay, hstep, rfl⟩ | ⟨i, x, hs⟩⟩ := step_cases hs
  · obtain rfl | ⟨out, hreads⟩ := h.sound.reads hr hfit hs
    · exact h.replied
    · obtain ⟨hgoes, hgiven⟩ := hreads.goes h.sound.server
      rw [hgiven, ThPool.call_done _ h.sound.accounted hreads.pool]
      -- the read leaves the sequence numbers as they are
      have hmid : Replied (s.send.setConn r.conn out.conn).sys.server.pool.conn
          s.send.sys.given s.pool.done := by
        refine ⟨h.replied.sub, fun hdr hcur => h.replied.all hdr ?_⟩
        rw [← hcur]
        exact (Server.setConn_curSeq hreads.curSeq hdr.pconn).symm
      apply hmid.goes hreads.tracked _ hgoes
      exact fun m hm => List.mem_append_left _ (h.sound.accounted.done_subset hm)
  · obtain ⟨-, hsend⟩ := Option.ite_none_right_eq_some.mp hsend
    obtain ⟨sys, hsys, rfl⟩ := Option.map_eq_some_iff.mp hsend
    obtain ⟨hgoes, hgiven⟩ := SendSys.step_goes h.sound.server (maySend_ne hmay) hsys
    show Replied sys.conn sys.given s.pool.done
    rw [hgiven]
    exact h.replied.goes h.sound.tracked h.sound.accounted.done_subset hgoes
  · rw [(moves_of_pool hmay hstep).done h.sound.accounted]
    exact h.replied
  · obtain ⟨m, bufs, hprocesses⟩ := h.sound.processes hs
    have hafter := h.replied.reply hprocesses.replies
    have hconn : s'.conn = s.conn := by
      funext c
      unfold conn SendSys.conn
      rw [hprocesses.send, foldl_sendMsg_server]
    rw [hconn, hprocesses.done, hprocesses.send, foldl_sendMsg_given]
    exact hafter

theorem TcpServer.start_serving (n : Nat) (wait : Int) (nows : List Int) :
    (TcpServer.start n wait nows).Serving :=
  ⟨TcpServer.start_sound n wait nows, fun _ => List.nil_sublist _, fun _ _ => rfl⟩

/-! ## The wire -/

/-- What the step is for the sender. -/
def TcpAct.sending : TcpAct → Option (SendAct .tcp)
  | .send act => some act
  | _ => none

/-- The condition on the sender. -/
def TcpServer.Whole (s : TcpServer) (act : TcpAct) : Prop :=
  ∀ a ∈ act.sending, TakenWhole s.send.sys a

instance (s : TcpServer) (act : TcpAct) : Decidable (s.Whole act) :=
  inferInstanceAs (Decidable (∀ a ∈ act.sending, _))

theorem foldl_sendMsg_steady {b : Build} (bufs : List (SendBuf b)) : ∀ {s : SendSys b}, s.Steady →
    (bufs.foldl SendSys.sendMsg s).Steady ∧ (bufs.foldl SendSys.sendMsg s).sent = s.sent := by
  induction bufs with
  | nil => exact fun h => ⟨h, rfl⟩
  | cons buf bufs ih =>
    intro s h
    obtain ⟨hsteady, hsent⟩ := h.sendMsg buf
    obtain ⟨hafter, hall⟩ := ih hsteady
    exact ⟨hafter, hall.trans hsent⟩

/-- The server, the send side of which is in order. -/
structure TcpServer.Orderly (s : TcpServer) : Prop where
  serving : s.Serving
  steady : s.send.sys.Steady
  wire : s.send.wire = s.send.sys.sent

theorem TcpServer.step_orderly (s : TcpServer) (act : TcpAct) (s' : TcpServer) (h : s.Orderly)
    (hok : s.Whole act) (hs : s.step act = some s') : s'.Orderly := by
  have hserving := s.step_serving act s' h.serving hs
  suffices hsend : s'.send.sys.Steady ∧ s'.send.wire = s'.send.sys.sent from
    ⟨hserving, hsend.1, hsend.2⟩
  have hsound := h.serving.sound
  obtain ⟨-, -, ⟨r, ret, now, hr, hfit, hs⟩ | ⟨a, send, rfl, -, hsend, rfl⟩ |
    ⟨a, pool, -, -, rfl⟩ | ⟨i, x, hs⟩⟩ := step_cases hs
  · obtain rfl | ⟨out, hreads⟩ := hsound.reads hr hfit hs
    · exact ⟨h.steady, h.wire⟩
    · -- the connection has as little to send as before
      have hquiet : ∀ c, ((s.send.setConn r.conn out.conn).sys.conn c).Quiet :=
        Pool.setConn_all h.steady.quiet r.conn ((h.steady.quiet _).of_sameSend hreads.modest.1)
      have hmid : (s.send.setConn r.conn out.conn).sys.Steady :=
        ⟨hquiet, h.steady.order, h.steady.deleted, h.steady.cnt, h.steady.place, h.steady.defined⟩
      refine WireSys.step_steady _ (.server (.readable r ret now)) _ ⟨hmid, h.wire⟩ ?_ hreads.send
      intro rs hrs
      cases hrs
  · exact WireSys.step_steady _ _ _ ⟨h.steady, h.wire⟩ (hok a rfl) hsend
  · exact ⟨h.steady, h.wire⟩
  · obtain ⟨m, bufs, hprocesses⟩ := hsound.processes hs
    obtain ⟨hsteady, hsent⟩ := foldl_sendMsg_steady bufs h.steady
    rw [hprocesses.send]
    exact ⟨hsteady, h.wire.trans hsent.symm⟩

theorem TcpServer.start_orderly (n : Nat) (wait : Int) (nows : List Int) :
    (TcpServer.start n wait nows).Orderly :=
  ⟨TcpServer.start_serving n wait nows, SendSys.start_steady .tcp wait nows, rfl⟩

/-! ## What the clients may count on -/

/-- Nothing is on its way: the queue is empty, nobody has a package in his hands, and the send thread
waits at a semaphore that is zero. -/
structure TcpServer.Drained (s : TcpServer) : Prop where
  queue : s.pool.queue = []
  hands : s.pool.hands = []
  epoll : s.epollFree = true
  it : s.send.sys.it = .idle
  sem : s.send.sys.sendQueueSem = 0

/-- The answers a client is to get in the occupancy `hdr`. -/
def TcpServer.answers (s : TcpServer) (hdr : MsgHdr) : List (Nat × Bytes) :=
  (parse (under hdr s.received)).1.filterMap answer

theorem TcpServer.Sound.answers {s : TcpServer} (h : s.Sound) (hdr : MsgHdr) :
    answersFor hdr s.pool.delivered = s.answers hdr := by
  rw [answersFor, h.tracked.handed hdr, List.filterMap_map]
  apply List.filterMap_congr
  intro p _
  exact answer_emit hdr.pconn hdr.curSeq p

/-- Answers are read as they were sent. -/
theorem decode_answers {s : TcpServer} {hdr : MsgHdr} {items : List (Nat × Bytes)}
    (h : items ⊆ s.answers hdr) : decode (items.map answerPackage).flatten = some items := by
  apply decode_packages
  intro x hx
  obtain ⟨p, -, hp⟩ := List.mem_filterMap.mp (h hx)
  exact answer_bounds hp

/-- What is done with is part of what was delivered. -/
theorem TcpServer.Sound.done_subperm {s : TcpServer} (h : s.Sound) (hdr : MsgHdr) :
    (answersFor hdr s.pool.done).Subperm (s.answers hdr) := by
  have hdone : s.pool.done.Subperm s.pool.delivered := by
    have hinserted : s.pool.done.Subperm s.pool.inserted :=
      (List.sublist_append_left _ _).subperm.trans h.accounted.done_perm.subperm
    exact hinserted.trans (List.sublist_append_left _ _).subperm
  rw [← h.answers hdr]
  obtain ⟨l, hperm, hsub⟩ := hdone.filter fun m => m.hdr == hdr
  exact ⟨_, hperm.filterMap _, hsub.filterMap _⟩

/-- When nothing is on its way, everything that was delivered is done with. -/
theorem TcpServer.Sound.done_perm {s : TcpServer} (h : s.Sound) (hd : s.Drained) (hdr : MsgHdr) :
    (answersFor hdr s.pool.done).Perm (s.answers hdr) := by
  have hinserted := h.accounted.done_perm
  rw [hd.hands, hd.queue, List.append_nil, List.filterMap_nil, List.append_nil] at hinserted
  have hdelivered : s.pool.delivered = s.pool.inserted := by
    obtain ⟨p, hp⟩ := h.epoll
    have hidle := hd.epoll
    unfold epollFree at hidle
    unfold ThPool.delivered
    rw [hp, List.all_cons, List.all_nil, Bool.and_true] at hidle
    rw [hp]
    cases p with
    | idle => exact List.append_nil _
    | calling _ => cases hidle
    | locked _ => cases hidle
    | pushed => cases hidle
    | counted => cases hidle
    | posting => cases hidle
  rw [← h.answers hdr, hdelivered]
  exact (hinserted.filter _).filterMap _

/-- A single worker keeps taking the packages in turn. -/
theorem TcpServer.step_inTurn (s : TcpServer) (act : TcpAct) (s' : TcpServer)
    (h : s.Sound ∧ s.pool.InTurn) (hs : s.step act = some s') : s'.Sound ∧ s'.pool.InTurn := by
  obtain ⟨hsound, hturn⟩ := h
  refine ⟨s.step_sound act s' hsound hs, ?_⟩
  obtain ⟨-, -, ⟨r, ret, now, hr, hfit, hs⟩ | ⟨a, send, -, -, -, rfl⟩ |
    ⟨a, pool, -, hstep, rfl⟩ | ⟨i, x, hs⟩⟩ := step_cases hs
  · obtain rfl | ⟨out, hreads⟩ := hsound.reads hr hfit hs
    · exact hturn
    · exact run_invariant_all (fun _ _ _ hpool hs => hpool.step hs) hturn hreads.pool
  · exact hturn
  · exact hturn.step hstep
  · obtain ⟨m, bufs, hprocesses⟩ := hsound.processes hs
    exact hturn.step hprocesses.pool

/-- What a client was sent: a beginning of what was given to `send_msg` for it. -/
theorem TcpServer.Orderly.sent {s : TcpServer} (h : s.Orderly) (hdr : MsgHdr) :
    ∃ payloads, under hdr s.send.wire = payloads.flatten ∧
      payloads <+: payloadsFor hdr s.send.sys.given ∧
      (s.Drained → payloads = payloadsFor hdr s.send.sys.given) := by
  refine ⟨payloadsFor hdr (s.send.sys.given.take s.send.sys.started.length), ?_, ?_, fun hd => ?_⟩
  · rw [h.wire, SendSys.under_sent, payloadsFor, List.flatMap_def]
  · exact ((List.take_prefix _ _).filter _).map _
  · rw [h.steady.all_started hd.it hd.sem, List.take_length]

/-- **What a client may count on.** Any number of clients come, go, and send packages in any
segmentation; any number of workers process them in any interleaving. As long as each message is
visited while its occupancy lasts and `send` takes it whole, what a client was sent in an occupancy
can be read as packages: answers to packages it sent, none of which is answered twice. With a single
worker they are in the order of the packages, and for a client that is still there none is skipped.
Once nothing is on its way any more, a client that is still there has all its answers. -/
theorem tcp_server_answers (n : Nat) (wait : Int) (nows : List Int) (acts : List TcpAct)
    (s : TcpServer) (hrun : run TcpServer.step (TcpServer.start n wait nows) acts = some s)
    (hok : Meets TcpServer.step TcpServer.Whole (TcpServer.start n wait nows) acts) (hdr : MsgHdr) :
    ∃ replies, decode (under hdr s.send.wire) = some replies ∧
      replies.Subperm (s.answers hdr) ∧
      (n = 1 → replies.Sublist (s.answers hdr)) ∧
      ((s.conn hdr.pconn).curSeq = hdr.curSeq →
        (n = 1 → replies <+: s.answers hdr) ∧ (s.Drained → replies.Perm (s.answers hdr))) := by
  have horderly : s.Orderly :=
    run_invariant TcpServer.step_orderly acts _ s (TcpServer.start_orderly n wait nows) hok hrun
  have hsound := horderly.serving.sound
  have hreplied := horderly.serving.replied
  obtain ⟨payloads, hwire, hfirst, hall⟩ := horderly.sent hdr
  obtain ⟨replies, hdone, rfl⟩ :=
    List.sublist_map_iff.mp (hfirst.sublist.trans (hreplied.sub hdr))
  have hsubperm : replies.Subperm (s.answers hdr) :=
    hdone.subperm.trans (hsound.done_subperm hdr)
  have hdecode : decode (under hdr s.send.wire) = some replies := by
    rw [hwire]
    exact decode_answers hsubperm.subset
  have hturn : n = 1 → answersFor hdr s.pool.done <+: s.answers hdr := by
    rintro rfl
    have hinTurn := (run_invariant_all TcpServer.step_inTurn
      ⟨TcpServer.start_sound 1 wait nows, ThPool.start_inTurn RecvMem 1⟩ hrun).2
    rw [← hsound.answers hdr]
    exact (hinTurn.done_prefix.filter _).filterMap _
  refine ⟨replies, hdecode, hsubperm, fun hone => hdone.trans (hturn hone).sublist, fun hcur => ?_⟩
  rw [hreplied.all hdr hcur] at hfirst hall
  -- the packages on the wire tell the answers
  have hread : ∀ {items}, items ⊆ s.answers hdr →
      replies.map answerPackage = items.map answerPackage → replies = items := by
    intro items hsub heq
    rw [hwire, heq, decode_answers hsub] at hdecode
    exact (Option.some.inj hdecode).symm
  constructor
  · intro hone
    obtain ⟨items, hitems, heq⟩ := List.prefix_map_iff.mp hfirst
    have hbegin := hitems.trans (hturn hone)
    rw [hread hbegin.subset heq]
    exact hbegin
  · intro hd
    have hperm := hsound.done_perm hd hdr
    rw [hread hperm.subset (hall hd)]
    exact hperm

/-- The PING is processed, and the answer sent. -/
def pingAnswered : List TcpAct :=
  pingPopped ++ [.process 0 debugLog.ctx, .send .wake, .send (.sendLoop [.fail .eintr, .sent 8]),
    .send (.sendLoop [])]

theorem tcp_server_answers_ping : ∃ s,
    run TcpServer.step (TcpServer.start 1 80 [0]) pingAnswered = some s ∧
      decode (under ⟨0, 2⟩ s.send.wire) = some [(pkgTypePing, [])] := by
  obtain ⟨s, hrun, hbytes, hcur, hdrained⟩ : ∃ s,
      run TcpServer.step (TcpServer.start 1 80 [0]) pingAnswered = some s ∧
        under ⟨0, 2⟩ s.received = [sendMsgWithNobody 0].flatten ∧ (s.conn 0).curSeq = 2 ∧
        s.Drained := ⟨_, rfl, rfl, rfl, rfl, rfl, rfl, rfl, rfl⟩
  have hok : Meets TcpServer.step TcpServer.Whole (TcpServer.start 1 80 [0]) pingAnswered := by
    decide
  obtain ⟨replies, hdecode, -, -, hlive⟩ :=
    tcp_server_answers 1 80 [0] pingAnswered s hrun hok ⟨0, 2⟩
  have hanswers : s.answers ⟨0, 2⟩ = [(pkgTypePing, [])] := by
    have hparse : parse [sendMsgWithNobody 0].flatten = ([sendMsgWithNobody 0], []) := by
      apply parse_packages
      intro p hp
      obtain rfl := List.mem_singleton.mp hp
      exact ⟨rfl, by decide, by decide⟩
    rw [TcpServer.answers, hbytes, hparse]
    rfl
  have hperm := (hlive hcur).2 hdrained
  rw [hanswers] at hperm
  rw [List.perm_singleton.mp hperm] at hdecode
  exact ⟨s, hrun, hdecode⟩

end Mgx
