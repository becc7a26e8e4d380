import Mgx.Heartbeat

/-
  The timer queue has one entry for each open connection.

  `event_accept` adds an entry and `insert_recy_conn_queue` takes one away, which
  it finds by the connection alone; `get_over_time_timer` puts back what it takes.
  `close_conn`, the way out after a socket error, leaves the entry behind, and the
  next client of the connection gets a second one.

  What is proved: `timer_entries_match`. While no read handler meets a socket error
  or runs for a connection that is closed already, the headers in the queue are
  those of the open connections with their present numbers, as a permutation
  (`HbSys.Entries`), which every step keeps. `entry_left_behind` is the first
  client whose connection is reset.
-/
namespace Mgx
open Runs

/-- One entry for each open connection, with its number, and no other entries. -/
structure HbSys.EntriesMatch (s : HbSys) : Prop where
  one : ∀ c, s.server.InUse c → (s.timers.hdrs.map MsgHdr.pconn).count c = 1
  own : ∀ h ∈ s.timers.hdrs, s.server.InUse h.pconn ∧ h.curSeq = s.server.curSeq h.pconn
  length : s.timers.queue.length = s.server.fds.length

/-- What `recv` answers to a read handler. -/
def HbAct.received : HbAct → Option RecvRet
  | .event ret _ => some ret
  | _ => none

/-- A read handler runs only for a registration that is still there and meets no socket error, and
an entry that passes the test has the number of its connection. -/
def EntryOk (s : HbSys) (a : HbAct) : Prop :=
  OpenOk s a ∧ ∀ ret ∈ a.received, ∀ r ∈ s.batch.head?,
    s.server.pool.staleEvent r.conn r.inst = true ∨ (recvProcess ret).2 ≠ some .immediate

/-! ## The entries as a permutation -/

/-- The header `add_to_timer_queue` makes for a connection. -/
def Server.hdrOf (s : Server) (c : ConnId) : MsgHdr := ⟨c, s.curSeq c⟩

/-- The headers the queue should hold. -/
def Server.openHdrs (s : Server) : List MsgHdr := (s.fds.map Reg.conn).map s.hdrOf

/-- The queue holds the headers of the open connections. -/
def HbSys.Entries (s : HbSys) : Prop := s.timers.hdrs.Perm s.server.openHdrs

/-- Connections that do not change hands keep their headers. -/
theorem Server.Moved.map_hdrOf {s s' : Server} {c : ConnId} (hm : s.Moved s' c) {l : List ConnId}
    (hc : c ∉ l) : l.map s'.hdrOf = l.map s.hdrOf := by
  apply List.map_congr_left
  intro d hd
  have hne : d ≠ c := fun he => hc (he ▸ hd)
  show (⟨d, (s'.pool.conn d).curSeq⟩ : MsgHdr) = ⟨d, (s.pool.conn d).curSeq⟩
  rw [hm.other d hne]

/-- `delete_from_timer_queue` finds the one entry of the connection. -/
theorem eraseP_openHdr {s : Server} {hdrs : List MsgHdr} {c : ConnId} {l : List ConnId}
    (hc : c ∉ l) (h : hdrs.Perm ((c :: l).map s.hdrOf)) :
    (hdrs.eraseP (·.pconn == c)).Perm (l.map s.hdrOf) := by
  have hrest : ∀ x ∈ l.map s.hdrOf, ¬ (x.pconn == c) = true := by
    intro x hx hxc
    obtain ⟨d, hd, rfl⟩ := List.mem_map.mp hx
    exact hc (beq_iff_eq.mp hxc ▸ hd)
  have hpair : ((c :: l).map s.hdrOf).Pairwise
      fun a b => (a.pconn == c) = true → (b.pconn == c) = true → False := by
    rw [List.map_cons, List.pairwise_cons]
    refine ⟨fun x hx _ => hrest x hx, ?_⟩
    exact List.pairwise_of_forall_mem_list fun x hx _ _ hxc _ => hrest x hx hxc
  have herase : ((c :: l).map s.hdrOf).eraseP (·.pconn == c) = l.map s.hdrOf :=
    List.eraseP_cons_of_pos (beq_self_eq_true c)
  rw [← herase]
  exact (List.Perm.eraseP _ hpair h.symm).symm

/-! ## Every step keeps the entries -/

section
variable {w : HeartWaitTime} {s s' : HbSys} {c : ConnId}

/-- One more connection, one more entry. -/
theorem HbSys.Entries.accept {fd now later : Int} (h : s.Inv w) (he : s.Entries)
    (hs : s.accept fd now later = some s') : s'.Entries := by
  obtain ⟨⟨c, server⟩, hacc, hs⟩ := Option.bind_eq_some_iff.mp hs
  obtain ⟨timers, hadd, rfl⟩ := Option.map_eq_some_iff.mp hs
  obtain ⟨hm, hunused, -, r, hr, hfds⟩ := Server.accept_moved h.server hacc
  have hopen : server.openHdrs = ⟨c, server.curSeq c⟩ :: s.server.openHdrs := by
    rw [Server.openHdrs, hfds, List.map_cons, List.map_cons, hr, hm.map_hdrOf hunused]
    rfl
  show timers.hdrs.Perm server.openHdrs
  rw [hopen]
  exact (TimerQueue.add_hdrs hadd).trans (he.cons _)

/-- A client whose registration fails never had an entry. -/
theorem HbSys.Entries.acceptFails {server : Server} {fd now : Int} (h : s.Inv w) (he : s.Entries)
    (hacc : s.server.accept fd now = some (c, server)) :
    HbSys.Entries { s with server := server.closeConn c } := by
  obtain ⟨hm, hunused, -, r, hr, hfds⟩ := Server.accept_moved h.server hacc
  obtain ⟨hinv, huse⟩ := accept_inv h.server hacc
  obtain ⟨hm', -⟩ := Server.closeConn_moved hinv huse
  have hperm := (hinv.close_use huse).1
  have hopen : server.fds.map Reg.conn = c :: s.server.fds.map Reg.conn := by
    rw [hfds, List.map_cons, hr]
  rw [hopen] at hperm
  show s.timers.hdrs.Perm (server.closeConn c).openHdrs
  have hback : (server.closeConn c).openHdrs.Perm s.server.openHdrs := by
    show (((closeFd server.fds _).map Reg.conn).map (server.closeConn c).hdrOf).Perm
      ((s.server.fds.map Reg.conn).map s.server.hdrOf)
    rw [← (hm.trans hm').map_hdrOf hunused]
    exact (hperm.cons_inv.map _).symm
  exact he.trans hback.symm

/-- A connection in use goes with its entry. -/
theorem HbSys.Entries.insertRecy {now : Int} (h : s.Inv w) (he : s.Entries)
    (hc : s.server.InUse c) (hs : s.insertRecy c now = some s') : s'.Entries := by
  obtain ⟨timers, hdel, rfl⟩ := Option.map_eq_some_iff.mp hs
  obtain ⟨hm, hunused, hperm⟩ := Server.insertRecy_moved h.server hc now
  show timers.hdrs.Perm (s.server.insertRecyConnQueue c now).openHdrs
  rw [TimerQueue.delete_hdrs hdel, Server.openHdrs, hm.map_hdrOf hunused]
  exact eraseP_openHdr hunused (he.trans (hperm.map _))

/-- An object that is not in use changes hands. -/
theorem HbSys.Entries.moved {pool : Pool} (he : s.Entries)
    (hm : s.server.Moved { s.server with pool := pool } c) (hc : ¬ s.server.InUse c) :
    HbSys.Entries { s with server := { s.server with pool := pool } } := by
  show s.timers.hdrs.Perm ((s.server.fds.map Reg.conn).map _)
  rw [hm.map_hdrOf hc]
  exact he

/-- A PING changes no number. -/
theorem HbSys.Entries.ping (he : s.Entries) (hdr : MsgHdr) (now : Int) :
    (s.ping hdr now).Entries := by
  have hhdr : (s.ping hdr now).server.hdrOf = s.server.hdrOf := by
    funext d
    show (⟨d, ((s.server.pool.setConn hdr.pconn _).conn d).curSeq⟩ : MsgHdr) = ⟨d, _⟩
    congr 1
    by_cases hd : d = hdr.pconn
    · rw [hd, Pool.setConn_self]; rfl
    · rw [Pool.setConn_other _ _ _ hd]; rfl
  show s.timers.hdrs.Perm ((s.server.fds.map Reg.conn).map _)
  rw [hhdr]
  exact he

theorem HbSys.step_entries {a : HbAct} (h : s.Inv w) (he : s.Entries) (hok : EntryOk s a)
    (hs : s.step a = some s') : s'.Entries := by
  obtain ⟨clock, hclock, hs⟩ := Option.bind_eq_some_iff.mp hs
  have h : HbSys.Inv w { s with clock := clock } := h.threads (fun x hx => hx) (readClock_le hclock).1
  have he : HbSys.Entries { s with clock := clock } := he
  cases a with
  | accept fd now later => exact HbSys.Entries.accept h he hs
  | acceptFails fd now =>
    obtain ⟨⟨c, server⟩, hacc, rfl⟩ := Option.map_eq_some_iff.mp hs
    exact HbSys.Entries.acceptFails h he hacc
  | epollWait evs =>
    obtain ⟨-, hs⟩ := Option.ite_none_right_eq_some.mp hs
    cases hs
    exact he
  | event ret now =>
    simp only [HbSys.act] at hs
    split at hs
    · cases hs
    next r rest hbatch =>
    split at hs
    · cases hs
      exact he
    next hstale =>
    have hhead : r ∈ s.batch.head? := by
      rw [hbatch]
      rfl
    have hr := (hok.1.1 rfl r hhead).resolve_left hstale
    have hrel := (hok.2 ret rfl r hhead).resolve_left hstale
    obtain ⟨-, hs⟩ := Option.ite_none_right_eq_some.mp hs
    split at hs
    · cases hs
      exact he
    · have h' : HbSys.Inv w { s with clock := clock, batch := rest } :=
        h.threads (fun x hx => hx) (Int.le_refl _)
      exact HbSys.Entries.insertRecy h' he (List.mem_map_of_mem hr) hs
    · next himmediate => exact absurd himmediate hrel
  | ping hdr now =>
    cases hs
    exact he.ping hdr now
  | pass now =>
    obtain ⟨-, hs⟩ := Option.ite_none_right_eq_some.mp hs
    cases hs
    exact he
  | drain =>
    simp only [HbSys.act] at hs
    split at hs
    case h_2 => cases hs
    obtain ⟨⟨r, timers⟩, hget, hs⟩ := Option.map_eq_some_iff.mp hs
    have hperm : timers.hdrs.Perm s.server.openHdrs :=
      (TimerQueue.getOverTimeTimer_hdrs hget).1.trans he
    cases r with
    | none => cases hs; exact hperm
    | some hdr => cases hs; exact hperm
  | check now =>
    simp only [HbSys.act] at hs
    split at hs
    case h_1 curTime hdr rest hphase hque =>
      obtain ⟨h', hhdr⟩ := h.pop hque
      have hseq := hok.1.2 rfl hdr (by rw [show s.que = hdr :: rest from hque]; rfl)
      obtain rfl | ⟨hrecord, huse, hs⟩ := h'.check_cases hhdr hseq hs
      · exact he
      · exact HbSys.Entries.insertRecy hrecord he huse hs
    case h_2 =>
      cases hs
      exact he
    case h_3 => cases hs
  | recycle c now =>
    obtain ⟨hc, hs⟩ := Option.ite_none_right_eq_some.mp hs
    cases hs
    exact HbSys.Entries.moved he (Server.recycle_moved _ c) (h.server.recy_unused hc.1)

end

/-- What the permutation says of the connections one by one. -/
theorem HbSys.Entries.entriesMatch {w : HeartWaitTime} {s : HbSys} (he : s.Entries)
    (h : s.Inv w) : s.EntriesMatch where
  one := by
    intro c hc
    have hconns : s.server.openHdrs.map MsgHdr.pconn = s.server.fds.map Reg.conn := by
      rw [Server.openHdrs, List.map_map]
      exact List.map_id _
    rw [(he.map MsgHdr.pconn).count_eq, hconns]
    exact (h.server.inUse hc).2.2
  own := by
    intro hdr hmem
    obtain ⟨c, hc, rfl⟩ := List.mem_map.mp (he.mem_iff.mp hmem)
    exact ⟨hc, rfl⟩
  length := by
    have hlen := he.length_eq
    simpa only [TimerQueue.hdrs, Server.openHdrs, List.length_map] using hlen

/-- **The timer entries match the open connections.** In a run in which read handlers run only for
registrations that are there and meet no socket error, and no sequence number comes round while an
entry waits, the timer queue holds exactly one entry for each open connection, with its present
number, and no other entry. -/
theorem timer_entries_match (recyWait : Int) (w : HeartWaitTime) (nows : List Int) (clock : Int)
    (acts : List HbAct) (s : HbSys)
    (hrun : run HbSys.step (HbSys.start recyWait w nows clock) acts = some s)
    (hok : Meets HbSys.step EntryOk (HbSys.start recyWait w nows clock) acts) :
    s.EntriesMatch := by
  have hkeep : ∀ (y : HbSys) a y', (y.Inv w ∧ y.Entries) → EntryOk y a → y.step a = some y' →
      y'.Inv w ∧ y'.Entries := by
    rintro y a y' ⟨hinv, he⟩ hok hstep
    exact ⟨HbSys.step_inv y a y' hinv hok.1 hstep, HbSys.step_entries hinv he hok hstep⟩
  have hstart := HbSys.start_inv recyWait w nows clock
  obtain ⟨hinv, he⟩ := run_invariant hkeep acts _ s ⟨hstart, .nil⟩ hok hrun
  exact he.entriesMatch hinv

instance (s : HbSys) (a : HbAct) : Decidable (EntryOk s a) :=
  inferInstanceAs (Decidable (OpenOk s a ∧ ∀ ret ∈ a.received, ∀ r ∈ s.batch.head?, _ ∨ _))

/-- Two clients; one shuts down, a third gets its object after the recycler has freed it. -/
def shutdownAndReuse : List HbAct :=
  [.accept 5 0 0, .accept 6 1 1, .epollWait [⟨5, 0, true⟩], .event (.got []) 2, .ping ⟨1, 1⟩ 80,
    .pass 82, .drain, .drain, .check 82, .check 82, .recycle 0 82, .accept 5 83 84]

theorem timer_entries_match_shutdownAndReuse : ∃ s,
    run HbSys.step (HbSys.start 80 fiveSeconds [0] 0) shutdownAndReuse = some s ∧
    s.timers.queue = [(87, ⟨1, 1⟩), (89, ⟨0, 5⟩)] ∧ s.EntriesMatch :=
  ⟨_, rfl, rfl, timer_entries_match 80 fiveSeconds [0] 0 shutdownAndReuse _ rfl
    (by decide)⟩

/-- The connection of the first client is reset; the next client gets its object. -/
def resetAndReuse : List HbAct :=
  [.accept 5 0 0, .epollWait [⟨5, 0, true⟩], .event (.fail .econnreset) 1, .accept 5 2 2]

/-- The connection has two entries, one of them with the number of its first client. -/
theorem entry_left_behind : ∃ s,
    run HbSys.step (HbSys.start 80 fiveSeconds [0] 0) resetAndReuse = some s ∧
    s.timers.queue = [(5, ⟨0, 2⟩), (7, ⟨0, 4⟩)] ∧ s.server.fds = [⟨5, 0, false⟩] ∧
    ¬ s.EntriesMatch :=
  ⟨_, rfl, rfl, rfl, fun h => absurd h.length (by decide)⟩

end Mgx
