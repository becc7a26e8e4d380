import Mgx.Lib.Journal
import Mgx.SendQueue

/-
  What the clients are sent.

  The sender of `Mgx.SendQueue`, with the bytes the kernel accepts from it. They go
  to whoever has the connection at that time, so they stand under the occupancy in
  which they are accepted, and not under the one the message was made for. A turn of
  the send thread is one step as there, so that it lies in one occupancy.

  Correspondence (C++ ↔ Lean):
    bytes accepted by `send` in `send_msg_th_func`     ↔ `SendSys.accepted`
    bytes accepted by `send` in `send_msg_handler`     ↔ `SendSys.acceptedLater`
    epoll reports EPOLLOUT to who has asked for it     ↔ `SendSys.reports`

  `EPOLL_CTL_ADD` clears EPOLLOUT of a connection that is handed out again. It stays
  here as the last occupant left it, which lets the write handler run more often
  than it does.

  What is proved: `sent_in_order`. As long as every message is visited while its
  occupancy lasts, and `send` takes it whole, each client is sent the payloads of
  the messages for it, whole, once each and in the order of `send_msg`, nothing
  else; and when the send thread waits at a semaphore that is zero, all of them.
-/
namespace Mgx
open CMem Journal Runs

variable {b : Build}

/-- The sender, and the bytes accepted so far, each lot under the occupancy it went to. -/
structure WireSys (b : Build) where
  sys : SendSys b
  wire : List (MsgHdr × Bytes)

/-- What a turn of the send thread's loop gets accepted. -/
def SendSys.accepted (s : SendSys b) (rs : List SendRet) : Option (MsgHdr × Bytes) :=
  match s.it with
  | .idle => none
  | .past => none
  | .elem i =>
    s.sendList[i]?.bind fun a => s.given[a]?.bind fun m =>
      if a ∈ s.deleted then none
      else if !seqEq (s.conn m.hdr.pconn).curSeq m.hdr.curSeq then none
      else if (s.conn m.hdr.pconn).throwSendCnt > 0 then none
      else (sendFirst b a m.body (s.conn m.hdr.pconn) rs).map fun out =>
        (⟨m.hdr.pconn, (s.conn m.hdr.pconn).curSeq⟩, out.call.wire m)

/-- What a call of the write handler gets accepted. -/
def SendSys.acceptedLater (s : SendSys b) (c : ConnId) (rs : List SendRet) :
    Option (MsgHdr × Bytes) :=
  (s.conn c).psendMemAddr.bind fun a => s.given[a]?.bind fun m =>
    (sendMsgHandler (s.conn c) rs).map fun out => (⟨c, (s.conn c).curSeq⟩, out.call.wire m)

/-- What a step gets accepted. -/
def SendSys.writes (s : SendSys b) : SendAct b → Option (MsgHdr × Bytes)
  | .sendLoop rs => s.accepted rs
  | .writable c rs => s.acceptedLater c rs
  | .server _ => none
  | .capture _ => none
  | .sendMsg _ => none
  | .wake => none

/-- A connection is reported writable only if EPOLLOUT is in its interest set. -/
def SendSys.reports (s : SendSys b) : SendAct b → Bool
  | .writable c _ => (s.conn c).events.epollout
  | _ => true

/-- One step. -/
def WireSys.step (s : WireSys b) (act : SendAct b) : Option (WireSys b) :=
  if s.sys.reports act then
    (s.sys.step act).map fun sys => ⟨sys, s.wire ++ (s.sys.writes act).toList⟩
  else none

def WireSys.start (b : Build) (wait : Int) (nows : List Int) : WireSys b :=
  ⟨SendSys.start b wait nows, []⟩

/-- The message the send thread visits is for the current occupancy of its connection, it is not
empty, and `send` takes the whole of it. -/
def TakenWhole (s : SendSys b) (act : SendAct b) : Prop :=
  ∀ rs ∈ act.turn, ∀ m ∈ s.visited, (s.conn m.hdr.pconn).curSeq = m.hdr.curSeq ∧
    m.payload ≠ [] ∧ firstAnswer rs = some (.sent m.payload.length)

instance (s : SendSys b) (act : SendAct b) : Decidable (TakenWhole s act) :=
  inferInstanceAs (Decidable (∀ rs ∈ act.turn, ∀ m ∈ s.visited, _))

/-! ## Connections that have nothing to send -/

/-- Nothing is left to send on the connection, and EPOLLOUT is not in its interest set. -/
structure Conn.Quiet (c : Conn) : Prop where
  cnt : c.throwSendCnt = 0
  mem : c.psendMemAddr = none
  out : c.events.epollout = false

theorem Conn.new_quiet : Conn.new.Quiet := ⟨rfl, rfl, rfl⟩

theorem Conn.Quiet.getOneToUse {c : Conn} (h : c.Quiet) (now : Int) : (c.getOneToUse now).Quiet :=
  ⟨rfl, rfl, h.out⟩

theorem Conn.Quiet.putOneToFree {c : Conn} (h : c.Quiet) : c.putOneToFree.Quiet :=
  ⟨h.cnt, rfl, h.out⟩

/-- What holds of all connections, and of the one that is stored. -/
theorem Pool.setConn_all {P : Conn → Prop} {p : Pool} (h : ∀ d, P (p.conn d)) (c : ConnId) {x : Conn}
    (hx : P x) (d : ConnId) : P ((p.setConn c x).conn d) := by
  by_cases hdc : d = c
  · rw [hdc, Pool.setConn_self]
    exact hx
  · rw [Pool.setConn_other _ _ _ hdc]
    exact h d

section
variable {p p' : Pool} (h : ∀ d, (p.conn d).Quiet)
include h

theorem Pool.getConn_quiet {fd now : Int} {c : ConnId} (hget : p.getConn fd now = some (c, p')) :
    ∀ d, (p'.conn d).Quiet := by
  obtain ⟨-, rest, -, rfl⟩ | ⟨-, -, rfl⟩ := Pool.getConn_cases hget
  · have hx := (h c).getOneToUse now
    exact Pool.setConn_all h c ⟨hx.cnt, hx.mem, hx.out⟩
  · have hx := Conn.new_quiet.getOneToUse now
    exact Pool.setConn_all h c ⟨hx.cnt, hx.mem, hx.out⟩

theorem Pool.freeConn_quiet (c : ConnId) : ∀ d, ((p.freeConn c).conn d).Quiet :=
  Pool.setConn_all h c (h c).putOneToFree

theorem Pool.insertRecy_quiet (c : ConnId) (now : Int) :
    ∀ d, ((p.insertRecy c now).conn d).Quiet := by
  unfold Pool.insertRecy
  split
  · exact h
  · exact Pool.setConn_all h c ⟨(h c).cnt, (h c).mem, (h c).out⟩

end

/-- A step of the server finds no buffer to delete, and leaves none. -/
theorem Server.step_quiet {s s' : Server} {a : ServerAct} (h : ∀ d, (s.pool.conn d).Quiet)
    (hs : s.step a = some s') : (∀ d, (s'.pool.conn d).Quiet) ∧ s.deletes a = [] := by
  have hnone : ∀ c, (s.pool.conn c).putOneToFreeDeletes = [] := by
    intro c
    rw [Conn.putOneToFreeDeletes, (h c).mem]
    rfl
  cases a with
  | accept fd now =>
    obtain ⟨⟨c, s₁⟩, hacc, rfl⟩ := Option.map_eq_some_iff.mp hs
    obtain ⟨p, hget, -, rfl⟩ := Server.accept_spec hacc
    exact ⟨Pool.getConn_quiet h hget, rfl⟩
  | acceptFails fd now =>
    obtain ⟨⟨c, s₁⟩, hacc, rfl⟩ := Option.map_eq_some_iff.mp hs
    obtain ⟨p, hget, -, rfl⟩ := Server.accept_spec hacc
    exact ⟨Pool.freeConn_quiet (Pool.getConn_quiet h hget) c, rfl⟩
  | readable r ret now =>
    obtain ⟨-, hs⟩ := Option.ite_none_right_eq_some.mp hs
    obtain rfl := Option.some.inj hs
    constructor
    · unfold Server.readEvent
      split
      · exact h
      · split
        · exact h
        · exact Pool.insertRecy_quiet h r.conn now
        · exact Pool.freeConn_quiet h r.conn
    · simp only [Server.deletes, hnone, ite_self]
  | recycle c now =>
    obtain ⟨-, hs⟩ := Option.ite_none_right_eq_some.mp hs
    obtain rfl := Option.some.inj hs
    exact ⟨Pool.freeConn_quiet (p := { s.pool with
      recySet := s.pool.recySet.erase c
      totalRecyConnsCnt := s.pool.totalRecyConnsCnt - 1 }) h c, hnone c⟩

theorem initOne_foldl_quiet (nows : List Int) : ∀ {p : Pool}, (∀ d, (p.conn d).Quiet) →
    ∀ d, ((nows.foldl Pool.initOne p).conn d).Quiet := by
  induction nows with
  | nil => exact fun h => h
  | cons now nows ih =>
    intro p h
    apply ih
    have hx := Conn.new_quiet.getOneToUse now
    exact Pool.setConn_all h _ ⟨hx.cnt, hx.mem, hx.out⟩

/-! ## The sender -/

/-- Where the sender is when nothing is ever left unfinished: messages are started and deleted in the
order in which they were given, the send thread is at the first of the others if at any, and while
it is at none the semaphore counts at least the messages that wait. -/
structure SendSys.Steady (s : SendSys b) : Prop where
  quiet : ∀ c, (s.conn c).Quiet
  order : s.started ++ s.sendList = List.range s.given.length
  deleted : s.deleted = s.started
  cnt : s.sendListCnt = s.sendList.length
  place : (s.it = .elem 0 ∧ s.sendList ≠ []) ∨
    ((s.it = .idle ∨ s.it = .past) ∧ s.sendList.length ≤ s.sendQueueSem)
  defined : s.undef = false

/-- The messages that have been started, and their payloads. -/
def SendSys.sent (s : SendSys b) : List (MsgHdr × Bytes) :=
  (s.given.take s.started.length).map fun m => (m.hdr, m.payload)

/-- The next message is the first that has not been started. -/
theorem SendSys.Steady.next {s : SendSys b} (h : s.Steady) {a : Addr} {rest : List Addr}
    (hlist : s.sendList = a :: rest) : a = s.started.length ∧ a < s.given.length := by
  have hat : (List.range s.given.length)[s.started.length]? = some a := by
    rw [← h.order, hlist, List.getElem?_append_right (Nat.le_refl _), Nat.sub_self]
    rfl
  obtain ⟨hlt, heq⟩ := List.getElem?_eq_some_iff.mp hat
  rw [List.getElem_range] at heq
  rw [List.length_range] at hlt
  exact ⟨heq.symm, heq ▸ hlt⟩

theorem SendSys.Steady.started_le {s : SendSys b} (h : s.Steady) :
    s.started.length ≤ s.given.length := by
  have hlen := congrArg List.length h.order
  rw [List.length_append, List.length_range] at hlen
  omega

/-- The place behind an erased head. -/
theorem iterAt_zero (l : List Addr) :
    (iterAt 0 l.length = .elem 0 ∧ l ≠ []) ∨ (iterAt 0 l.length = .past ∧ l = []) := by
  cases l with
  | nil => exact .inr ⟨rfl, rfl⟩
  | cons a l => exact .inl ⟨rfl, List.cons_ne_nil a l⟩

/-- Other connections than those of the sender are stored. -/
theorem SendSys.Steady.server {s : SendSys b} (h : s.Steady) {server : Server}
    (hquiet : ∀ c, (server.pool.conn c).Quiet) {dels : List Addr} (hdels : dels = []) :
    SendSys.Steady { s with server := server, deleted := s.deleted ++ dels } :=
  ⟨hquiet, h.order, by rw [hdels, List.append_nil]; exact h.deleted, h.cnt, h.place, h.defined⟩

theorem SendSys.Steady.sendMsg {s : SendSys b} (h : s.Steady) (m : SendBuf b) :
    (s.sendMsg m).Steady ∧ (s.sendMsg m).sent = s.sent := by
  constructor
  · refine ⟨h.quiet, ?_, h.deleted, ?_, ?_, h.defined⟩
    · show s.started ++ (s.sendList ++ [s.given.length]) = List.range (s.given ++ [m]).length
      rw [← List.append_assoc, h.order, List.length_append, List.length_singleton, List.range_succ]
    · show s.sendListCnt + 1 = (s.sendList ++ [s.given.length]).length
      rw [h.cnt, List.length_append, List.length_singleton]
      omega
    · rcases h.place with ⟨hit, -⟩ | ⟨hit, hle⟩
      · exact .inl ⟨hit, by simp [SendSys.sendMsg]⟩
      · refine .inr ⟨hit, ?_⟩
        show (s.sendList ++ [s.given.length]).length ≤ s.sendQueueSem + 1
        rw [List.length_append, List.length_singleton]
        omega
  · show ((s.given ++ [m]).take s.started.length).map _ = _
    rw [List.take_append_of_le_length h.started_le]
    rfl

theorem SendSys.Steady.wake {s : SendSys b} (h : s.Steady) (hit : s.it = .idle) :
    s.wake.Steady := by
  have hle : s.sendList.length ≤ s.sendQueueSem := by
    rcases h.place with ⟨helem, -⟩ | ⟨-, hle⟩
    · rw [hit] at helem
      cases helem
    · exact hle
  refine ⟨h.quiet, h.order, h.deleted, h.cnt, ?_, h.defined⟩
  show (_ = Iter.elem 0 ∧ s.sendList ≠ []) ∨
    ((_ = Iter.idle ∨ _ = Iter.past) ∧ s.sendList.length ≤ s.sendQueueSem - 1)
  by_cases hpos : s.sendListCnt > 0
  · left
    have hne : s.sendList ≠ [] := by
      intro hnil
      rw [h.cnt, hnil] at hpos
      exact absurd hpos (by decide)
    rcases iterAt_zero s.sendList with ⟨hat, -⟩ | ⟨-, hnil⟩
    · exact ⟨(if_pos hpos).trans hat, hne⟩
    · exact absurd hnil hne
  · right
    have hlen : s.sendList.length = 0 := by
      rw [h.cnt] at hpos
      omega
    exact ⟨.inl (if_neg hpos), by omega⟩

/-- A first attempt that takes everything. -/
theorem sendFirst_whole {a : Addr} {m : SendBuf b} {c : Conn} (hc : c.Quiet) {rs : List SendRet}
    {out : SendOut} (hne : m.payload ≠ []) (hrs : firstAnswer rs = some (.sent m.payload.length))
    (h : sendFirst b a m.body c rs = some out) :
    out.conn.Quiet ∧ out.deleted = [a] ∧ out.call.wire m = m.payload := by
  obtain ⟨n, hn, hle, hcall, -, hcases⟩ := sendFirst_cases h
  have hwhole : n = m.payload.length := (sendUninterrupt_eq_iff hn).mpr hrs
  have hsize := m.payloadSize_le
  have hpos : 0 < m.payload.length := List.length_pos_iff.mpr hne
  have hwire : out.call.wire m = m.payload := by
    rw [hcall, hwhole, SendCall.wire, Int.toNat_natCast]
    exact m.payload_eq.symm
  obtain ⟨-, -, hdel, hconn⟩ | ⟨-, hlt, -⟩ | ⟨hzero, -⟩ | ⟨hneg, -⟩ | ⟨hneg, -⟩ := hcases
  · rw [hconn]
    exact ⟨⟨rfl, rfl, hc.out⟩, hdel, hwire⟩
  · omega
  · omega
  · omega
  · omega

/-- The send thread is at the head of the list, and the message there was not deleted. -/
theorem SendSys.Steady.at_elem {s : SendSys b} (h : s.Steady) {i : Nat} {a : Addr}
    (hit : s.it = .elem i) (ha : s.sendList[i]? = some a) :
    i = 0 ∧ a ∉ s.deleted ∧ ∃ rest, s.sendList = a :: rest := by
  have hzero : i = 0 := by
    rcases h.place with ⟨helem, -⟩ | ⟨hidle | hpast, -⟩
    · exact Iter.elem.inj (hit.symm.trans helem)
    · rw [hit] at hidle
      cases hidle
    · rw [hit] at hpast
      cases hpast
  subst hzero
  obtain ⟨rest, hlist⟩ : ∃ rest, s.sendList = a :: rest := by
    cases hl : s.sendList with
    | nil =>
      rw [hl] at ha
      cases ha
    | cons x rest =>
      rw [hl] at ha
      exact ⟨rest, by rw [Option.some.inj ha]⟩
  refine ⟨rfl, ?_, rest, hlist⟩
  have hnodup : (s.started ++ s.sendList).Nodup := h.order ▸ List.nodup_range
  rw [hlist] at hnodup
  rw [h.deleted]
  intro hmem
  exact (List.nodup_append.mp hnodup).2.2 a hmem a List.mem_cons_self rfl

/-- The head of the list is sent whole. -/
theorem SendSys.Steady.sendOne {s s' : SendSys b} (h : s.Steady) {a : Addr} {rest : List Addr}
    {m : SendBuf b} {rs : List SendRet} (hlist : s.sendList = a :: rest)
    (hne : m.payload ≠ []) (hwhole : firstAnswer rs = some (.sent m.payload.length))
    (hs : s.sendOne 0 a m rs = some s') : s'.Steady := by
  obtain ⟨out, hout, rfl⟩ := Option.map_eq_some_iff.mp hs
  obtain ⟨hquiet, hdel, -⟩ := sendFirst_whole (h.quiet _) hne hwhole hout
  have herase : s.sendList.eraseIdx 0 = rest := by
    rw [hlist]
    rfl
  refine ⟨Pool.setConn_all h.quiet _ hquiet, ?_, ?_, ?_, ?_, h.defined⟩
  · show (s.started ++ [a]) ++ s.sendList.eraseIdx 0 = _
    rw [herase, List.append_assoc]
    exact (congrArg (s.started ++ ·) hlist).symm.trans h.order
  · show s.deleted ++ out.deleted = s.started ++ [a]
    rw [hdel, h.deleted]
  · show s.sendListCnt - 1 = (s.sendList.eraseIdx 0).length
    rw [herase, h.cnt, hlist, List.length_cons]
    omega
  · show (iterAt 0 (s.sendList.eraseIdx 0).length = _ ∧ s.sendList.eraseIdx 0 ≠ []) ∨ _
    rcases iterAt_zero (s.sendList.eraseIdx 0) with hat | ⟨hat, hnil⟩
    · exact .inl hat
    · refine .inr ⟨.inr hat, ?_⟩
      show (s.sendList.eraseIdx 0).length ≤ s.sendQueueSem
      rw [hnil]
      exact Nat.zero_le _

/-- What is sent then is one message more. -/
theorem SendSys.Steady.sent_sendOne {s s' : SendSys b} (h : s.Steady) {a : Addr}
    {rest : List Addr} {m : SendBuf b} {rs : List SendRet} (hlist : s.sendList = a :: rest)
    (hm : s.given[a]? = some m) (hs : s.sendOne 0 a m rs = some s') :
    s'.sent = s.sent ++ [(m.hdr, m.payload)] := by
  obtain ⟨out, -, rfl⟩ := Option.map_eq_some_iff.mp hs
  obtain ⟨hnext, -⟩ := h.next hlist
  show (s.given.take (s.started ++ [a]).length).map _ = _
  rw [List.length_append, List.length_singleton, ← hnext, List.take_add_one, hm, List.map_append,
    SendSys.sent, ← hnext]
  rfl

/-- One turn of the loop. -/
theorem SendSys.Steady.sendLoop {s s' : SendSys b} (h : s.Steady) {rs : List SendRet}
    (hok : TakenWhole s (.sendLoop rs)) (hs : s.sendLoop rs = some s') :
    s'.Steady ∧ s'.sent = s.sent ++ (s.accepted rs).toList := by
  obtain ⟨hit, rfl⟩ | ⟨i, a, m, hit, ha, hm, hcases⟩ := SendSys.sendLoop_cases hs
  · -- from `end()` back to the semaphore
    have hle : s.sendList.length ≤ s.sendQueueSem := by
      rcases h.place with ⟨helem, -⟩ | ⟨-, hle⟩
      · rw [hit] at helem
        cases helem
      · exact hle
    refine ⟨⟨h.quiet, h.order, h.deleted, h.cnt, .inr ⟨.inl rfl, hle⟩, h.defined⟩, ?_⟩
    rw [accepted, hit]
    exact (List.append_nil _).symm
  · obtain ⟨rfl, hlive, rest, hlist⟩ := h.at_elem hit ha
    -- its occupancy lasts, its connection is not busy
    obtain ⟨hseq, hne, hwhole⟩ := hok rs rfl m (visited_eq hit ha hm)
    have hcur : seqEq (s.conn m.hdr.pconn).curSeq m.hdr.curSeq = true := by
      rw [hseq]
      exact seqEq_self _
    have hidle : ¬ (s.conn m.hdr.pconn).throwSendCnt > 0 := by
      rw [(h.quiet _).cnt]
      decide
    obtain ⟨hdel, -⟩ | ⟨hstale, -⟩ | ⟨-, hbusy, -⟩ | ⟨-, -, hsend⟩ := hcases
    · exact absurd hdel hlive
    · rw [hcur] at hstale
      cases hstale
    · exact absurd hbusy hidle
    · refine ⟨h.sendOne hlist hne hwhole hsend, ?_⟩
      have haccepted : s.accepted rs = some (m.hdr, m.payload) := by
        obtain ⟨out, hout, -⟩ := Option.map_eq_some_iff.mp hsend
        obtain ⟨-, -, hwire⟩ := sendFirst_whole (h.quiet _) hne hwhole hout
        have hhdr : (⟨m.hdr.pconn, (s.conn m.hdr.pconn).curSeq⟩ : MsgHdr) = m.hdr := by
          rw [hseq]
        simp only [accepted, hit, ha, hm, Option.bind_some, if_neg hlive, hcur, Bool.not_true,
          Bool.false_eq_true, if_false, if_neg hidle, hout, Option.map_some, hwire, hhdr]
      rw [haccepted]
      exact h.sent_sendOne hlist hm hsend

/-- Every step that meets the condition. -/
theorem WireSys.step_steady (s : WireSys b) (act : SendAct b) (s' : WireSys b)
    (h : s.sys.Steady ∧ s.wire = s.sys.sent) (hok : TakenWhole s.sys act)
    (hs : s.step act = some s') : s'.sys.Steady ∧ s'.wire = s'.sys.sent := by
  obtain ⟨hsteady, hwire⟩ := h
  obtain ⟨hreports, hs⟩ := Option.ite_none_right_eq_some.mp hs
  obtain ⟨sys, hsys, rfl⟩ := Option.map_eq_some_iff.mp hs
  have hdef : ¬ s.sys.undef = true := by
    rw [hsteady.defined]
    exact Bool.noConfusion
  unfold SendSys.step at hsys
  rw [if_neg hdef] at hsys
  have hnone : s.wire ++ (none : Option (MsgHdr × Bytes)).toList = s.sys.sent := by
    rw [hwire]
    exact List.append_nil _
  cases act with
  | server a =>
    obtain ⟨server, hserver, rfl⟩ := Option.map_eq_some_iff.mp hsys
    obtain ⟨hquiet, hdels⟩ := Server.step_quiet hsteady.quiet hserver
    exact ⟨hsteady.server hquiet hdels, hnone⟩
  | capture c =>
    obtain ⟨-, hsys⟩ := Option.ite_none_right_eq_some.mp hsys
    obtain rfl := Option.some.inj hsys
    exact ⟨⟨hsteady.quiet, hsteady.order, hsteady.deleted, hsteady.cnt, hsteady.place,
      hsteady.defined⟩, hnone⟩
  | sendMsg m =>
    obtain ⟨-, hsys⟩ := Option.ite_none_right_eq_some.mp hsys
    obtain rfl := Option.some.inj hsys
    obtain ⟨hafter, hsent⟩ := hsteady.sendMsg m
    exact ⟨hafter, hnone.trans hsent.symm⟩
  | wake =>
    obtain ⟨⟨hit, -⟩, hsys⟩ := Option.ite_none_right_eq_some.mp hsys
    obtain rfl := Option.some.inj hsys
    exact ⟨hsteady.wake hit, hnone⟩
  | sendLoop rs =>
    obtain ⟨hafter, hsent⟩ := hsteady.sendLoop hok hsys
    refine ⟨hafter, ?_⟩
    rw [hsent, ← hwire]
    rfl
  | writable c rs =>
    -- nothing was left unfinished, so no connection waits to be writable
    have hout : (s.sys.conn c).events.epollout = true := hreports
    rw [(hsteady.quiet c).out] at hout
    cases hout

theorem SendSys.start_steady (b : Build) (wait : Int) (nows : List Int) :
    (SendSys.start b wait nows).Steady :=
  ⟨initOne_foldl_quiet nows fun _ => Conn.new_quiet, rfl, rfl, rfl, .inr ⟨.inl rfl, Nat.zero_le _⟩,
    rfl⟩

/-- What stands under an occupancy on the wire. -/
theorem SendSys.under_sent (s : SendSys b) (hdr : MsgHdr) : under hdr s.sent =
    ((s.given.take s.started.length).filter fun m => m.hdr == hdr).flatMap SendBuf.payload := by
  rw [sent, under, List.filter_map, List.flatMap_map]
  rfl

/-- When the send thread waits at a semaphore that is zero, all messages have been started. -/
theorem SendSys.Steady.all_started {s : SendSys b} (h : s.Steady) (hidle : s.it = .idle)
    (hsem : s.sendQueueSem = 0) : s.started.length = s.given.length := by
  have hlen := congrArg List.length h.order
  rw [List.length_append, List.length_range] at hlen
  rcases h.place with ⟨hit, -⟩ | ⟨-, hle⟩
  · rw [hidle] at hit
    cases hit
  · omega

/-- **Clients are sent the messages for them.** In every run in which each message is visited while
its occupancy lasts, and `send` takes it whole: what a client was sent is the payloads of the
messages for its occupancy that have been started, put together in the order in which they were
given to `send_msg`; these are the first so many of all messages; and once the send thread waits at
a semaphore that is zero, all of them. -/
theorem sent_in_order (b : Build) (wait : Int) (nows : List Int) (acts : List (SendAct b))
    (s : WireSys b) (hrun : run WireSys.step (WireSys.start b wait nows) acts = some s)
    (hok : Meets WireSys.step (fun s => TakenWhole s.sys) (WireSys.start b wait nows) acts) :
    s.sys.started = List.range s.sys.started.length ∧
    (∀ hdr, under hdr s.wire = ((s.sys.given.take s.sys.started.length).filter
      fun m => m.hdr == hdr).flatMap SendBuf.payload) ∧
    (s.sys.it = .idle → s.sys.sendQueueSem = 0 → s.sys.started.length = s.sys.given.length) := by
  have hstart : (WireSys.start b wait nows).sys.Steady ∧ (WireSys.start b wait nows).wire =
      (WireSys.start b wait nows).sys.sent := ⟨SendSys.start_steady b wait nows, rfl⟩
  obtain ⟨hsteady, hwire⟩ := run_invariant WireSys.step_steady acts _ s hstart hok hrun
  refine ⟨?_, fun hdr => hwire ▸ s.sys.under_sent hdr, hsteady.all_started⟩
  have htake := congrArg (List.take s.sys.started.length) hsteady.order
  rw [List.take_left, List.take_range, Nat.min_eq_left hsteady.started_le] at htake
  exact htake

/-- Two clients and three replies, two of them to the second client, one given while the send thread
is at work. -/
def threeWhole : List (SendAct .tcp) :=
  [.server (.accept 5 0), .server (.accept 6 0), .capture 0, .capture 1,
    .sendMsg (pingReplyTo 1 2), .sendMsg (pingReplyTo 0 2), .wake, .sendLoop [.fail .eintr, .sent 8],
    .sendMsg (pingReplyTo 1 2), .sendLoop [.sent 8], .sendLoop [.sent 8], .sendLoop []]

/-- The second client is sent two replies. -/
theorem sent_in_order_three : ∃ s,
    run WireSys.step (WireSys.start .tcp 80 [0, 0]) threeWhole = some s ∧
      under ⟨1, 2⟩ s.wire = [8, 0, 0, 0, 0, 0, 0, 0] ++ [8, 0, 0, 0, 0, 0, 0, 0] := by
  obtain ⟨s, hrun, hstarted, hgiven⟩ : ∃ s,
      run WireSys.step (WireSys.start .tcp 80 [0, 0]) threeWhole = some s ∧
        s.sys.started.length = 3 ∧
        s.sys.given = [pingReplyTo 1 2, pingReplyTo 0 2, pingReplyTo 1 2] := ⟨_, rfl, rfl, rfl⟩
  have hok : Meets WireSys.step (fun s => TakenWhole s.sys) (WireSys.start .tcp 80 [0, 0])
      threeWhole := by decide
  obtain ⟨-, hwire, -⟩ := sent_in_order .tcp 80 [0, 0] threeWhole s hrun hok
  refine ⟨s, hrun, ?_⟩
  rw [hwire, hstarted, hgiven]
  rfl

end Mgx
