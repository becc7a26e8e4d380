import Mgx.Lib.Journal
import Mgx.Framing
import Mgx.Generation
import Mgx.RecvReuse

/-
  Sessions.

  A connection object serves one client after the other, and many connections
  receive at the same time. An occupancy of a connection is named by the message
  header that is filled in during it: the connection and its sequence number.

  Correspondence (C++ ↔ Lean):
    a call of a pool operation or of `read_request_handler`  ↔ `RecvOp`, `Sessions.step`
    what its `recv` stored                                   ↔ `Sessions.received`
    the buffers given to `insert_msg_to_queue_and_signal`    ↔ `Sessions.handed`

  `Tracked` says what the receive side of all connections together stands for. It
  has two rules, one for a read and one for everything else that happens to a
  connection, and knows nothing of how connections are kept.

  What is proved: `sessions_apart`. Whatever operations come in whatever order, as
  long as reads are for connections in use, the packages handed on for an occupancy
  are those in the bytes received during it.
-/
namespace Mgx
open CMem Chunks Journal Runs

/-! ## One read -/

/-- A read goes on where the reference stopped. -/
theorem Sim.read {self : ConnId} {seq : Nat} {t : Bytes} {c : Conn} (h : Sim self seq t c)
    {ret : RecvRet} (hfit : ret.stored.length ≤ c.restRecvSize) :
    ∃ out, readRequestHandler self c ret = some out ∧
      out.msgs = (parse (t ++ ret.stored)).1.map (emit self seq) ∧
      Sim self seq (parse (t ++ ret.stored)).2 out.conn := by
  have hnothing : parse (t ++ []) = ([], t) := by rw [List.append_nil, h.unfinished]
  cases ret with
  | fail e =>
    refine ⟨_, readRequestHandler_fail self c e, ?_, ?_⟩
    · rw [RecvRet.stored, hnothing]
      rfl
    · rw [RecvRet.stored, hnothing]
      exact h
  | got x =>
    rcases Nat.eq_zero_or_pos x.length with hzero | hpos
    · obtain rfl := List.length_eq_zero_iff.mp hzero
      refine ⟨⟨c, [], some .delayed⟩, rfl, ?_, ?_⟩
      · rw [RecvRet.stored, hnothing]
        rfl
      · rw [RecvRet.stored, hnothing]
        exact h
    · obtain ⟨c', hfeed, hsim⟩ := sim_singles x t c h
      rw [feed_singles (readChunk_splits self) x c h.inv hpos hfit] at hfeed
      obtain ⟨out, hout, heq⟩ := Option.map_eq_some_iff.mp hfeed
      obtain ⟨rfl, hmsgs⟩ := Prod.mk.inj heq
      exact ⟨out, hout, hmsgs, hsim⟩

theorem Sim.seq {self : ConnId} {seq : Nat} {t : Bytes} {c : Conn} (h : Sim self seq t c) :
    c.curSeq = seq := by
  cases h with
  | hdr _ _ _ hseq => exact hseq
  | body _ _ _ _ hseq => exact hseq

/-- The receive side of the two is the same, and so is the sequence number. -/
structure Conn.SameRecv (c c' : Conn) : Prop where
  curSeq : c'.curSeq = c.curSeq
  recvStat : c'.recvStat = c.recvStat
  hdrBuf : c'.hdrBuf = c.hdrBuf
  precvBuf : c'.precvBuf = c.precvBuf
  restRecvSize : c'.restRecvSize = c.restRecvSize
  precvMemAddr : c'.precvMemAddr = c.precvMemAddr

theorem Conn.SameRecv.refl (c : Conn) : c.SameRecv c := ⟨rfl, rfl, rfl, rfl, rfl, rfl⟩

theorem Sim.congr {self : ConnId} {seq : Nat} {t : Bytes} {c c' : Conn} (hsame : c.SameRecv c')
    (h : Sim self seq t c) : Sim self seq t c' := by
  obtain ⟨hseq, hstat, hbuf, hptr, hrest, hmem⟩ := hsame
  cases h with
  | hdr at' hshort hbytes hcur =>
    have hat : HdrAt c' t.length :=
      ⟨hstat.trans at'.stat, hptr.trans at'.buf, hrest ▸ at'.rest, hrest ▸ at'.room,
        hmem.trans at'.mem⟩
    exact .hdr hat hshort (by rw [hbuf]; exact hbytes) (hseq.trans hcur)
  | body at' hlo hlt hhi hcur =>
    refine .body ⟨hstat.trans at'.stat, hptr.trans at'.buf, hrest ▸ at'.rest, hrest ▸ at'.room,
      at'.start, hmem.trans at'.mem, at'.size⟩ hlo hlt hhi (hseq.trans hcur)

/-! ## All connections together -/

/-- The receive side of the connections in use stands for the bytes of their occupancies; the buffers
handed on are the packages of each occupancy; and no bytes were received in an occupancy that is
still to come. -/
structure Tracked (conn : ConnId → Conn) (known used : ConnId → Prop)
    (received : List (MsgHdr × Bytes)) (handed : List RecvMem) : Prop where
  cur : ∀ c, used c →
    Sim c (conn c).curSeq (parse (under ⟨c, (conn c).curSeq⟩ received)).2 (conn c)
  handed : ∀ hdr : MsgHdr, handed.filter (fun m => m.hdr == hdr) =
    (parse (under hdr received)).1.map (emit hdr.pconn hdr.curSeq)
  past : ∀ x ∈ received, known x.1.pconn ∧ x.1.curSeq ≤ (conn x.1.pconn).curSeq

/-- What may happen to connection `c` between reads: nothing to its receive side, except that it goes
out of use; or its sequence number goes up, and if it is in use then, it starts afresh. -/
def GoesOn (known used used' : ConnId → Prop) (x x' : Conn) (c : ConnId) : Prop :=
  (x.SameRecv x' ∧ (used' c → used c)) ∨ ((used' c → x'.Fresh) ∧ (known c → x.curSeq < x'.curSeq))

section
variable {conn conn' : ConnId → Conn} {known known' used used' : ConnId → Prop}
  {received : List (MsgHdr × Bytes)} {handed : List RecvMem}

theorem Tracked.start : Tracked conn known used [] [] ↔ ∀ c, used c →
    Sim c (conn c).curSeq [] (conn c) := by
  have hparse : parse [] = ([], []) := parse_short (by decide)
  constructor
  · intro h c hc
    have hcur := h.cur c hc
    rwa [under_nil, hparse] at hcur
  · intro h
    refine ⟨fun c hc => ?_, fun hdr => ?_, fun x hx => absurd hx List.not_mem_nil⟩
    · rw [under_nil, hparse]
      exact h c hc
    · rw [under_nil, hparse]
      rfl

/-- Nothing was received in an occupancy that is still to come. -/
theorem Tracked.ahead (h : Tracked conn known used received handed) {hdr : MsgHdr}
    (hseq : known hdr.pconn → (conn hdr.pconn).curSeq < hdr.curSeq) : under hdr received = [] := by
  apply under_eq_nil
  intro x hx heq
  obtain ⟨hknown, hle⟩ := h.past x hx
  rw [heq] at hknown hle
  exact absurd (hseq hknown) (Nat.not_lt.mpr hle)

/-- Connections are handed out and given up. -/
theorem Tracked.move (h : Tracked conn known used received handed)
    (hmove : ∀ c, GoesOn known used used' (conn c) (conn' c) c)
    (hknown : ∀ c, known c → known' c) : Tracked conn' known' used' received handed := by
  refine ⟨fun c hc => ?_, h.handed, fun x hx => ?_⟩
  · rcases hmove c with ⟨hsame, hused⟩ | ⟨hfresh, hseq⟩
    · rw [hsame.curSeq]
      exact (h.cur c (hused hc)).congr hsame
    · have hnone : under ⟨c, (conn' c).curSeq⟩ received = [] := h.ahead hseq
      rw [hnone, parse_short (by decide)]
      exact (hfresh hc).sim c
  · obtain ⟨hin, hle⟩ := h.past x hx
    refine ⟨hknown _ hin, ?_⟩
    rcases hmove x.1.pconn with ⟨hsame, -⟩ | ⟨-, hseq⟩
    · rw [hsame.curSeq]
      exact hle
    · exact Nat.le_trans hle (Nat.le_of_lt (hseq hin))

/-- A connection in use is read from. -/
theorem Tracked.read (h : Tracked conn known used received handed) {c : ConnId} (hused : used c)
    (hknown : known c) {ret : RecvRet} (hfit : ret.stored.length ≤ (conn c).restRecvSize) :
    ∃ out, readRequestHandler c (conn c) ret = some out ∧ out.conn.curSeq = (conn c).curSeq ∧
      Tracked (Function.update conn c out.conn) known used
        (received ++ [(⟨c, (conn c).curSeq⟩, ret.stored)]) (handed ++ out.msgs) := by
  obtain ⟨out, hout, hmsgs, hsim⟩ := (h.cur c hused).read hfit
  have hseq : out.conn.curSeq = (conn c).curSeq := hsim.seq
  -- the reference reads on
  have hparse : parse (under ⟨c, (conn c).curSeq⟩ received ++ ret.stored) =
      ((parse (under ⟨c, (conn c).curSeq⟩ received)).1 ++
        (parse ((parse (under ⟨c, (conn c).curSeq⟩ received)).2 ++ ret.stored)).1,
        (parse ((parse (under ⟨c, (conn c).curSeq⟩ received)).2 ++ ret.stored)).2) :=
    parse_append _ _
  refine ⟨out, hout, hseq, fun d hd => ?_, fun hdr => ?_, fun x hx => ?_⟩
  · by_cases hdc : d = c
    · subst hdc
      rw [Function.update_self, hseq, under_snoc_self, hparse]
      exact hsim
    · have hne : (⟨c, (conn c).curSeq⟩ : MsgHdr) ≠ ⟨d, (conn d).curSeq⟩ :=
        fun heq => hdc (congrArg MsgHdr.pconn heq).symm
      rw [Function.update_of_ne hdc, under_snoc_other hne]
      exact h.cur d hd
  · rw [List.filter_append, h.handed hdr, hmsgs]
    by_cases hhdr : hdr = ⟨c, (conn c).curSeq⟩
    · subst hhdr
      rw [under_snoc_self, hparse, List.map_append]
      congr 1
      apply List.filter_eq_self.mpr
      intro m hm
      obtain ⟨p, -, rfl⟩ := List.mem_map.mp hm
      simp [emit]
    · rw [under_snoc_other (Ne.symm hhdr)]
      have hnone : ((parse ((parse (under ⟨c, (conn c).curSeq⟩ received)).2 ++ ret.stored)).1.map
          (emit c (conn c).curSeq)).filter (fun m => m.hdr == hdr) = [] := by
        apply List.filter_eq_nil_iff.mpr
        intro m hm
        obtain ⟨p, -, rfl⟩ := List.mem_map.mp hm
        simpa [emit] using Ne.symm hhdr
      rw [hnone, List.append_nil]
  · have hcur : ∀ d, (Function.update conn c out.conn d).curSeq = (conn d).curSeq := by
      intro d
      by_cases hdc : d = c
      · rw [hdc, Function.update_self, hseq]
      · rw [Function.update_of_ne hdc]
    rw [hcur]
    rcases List.mem_append.mp hx with hx | hx
    · exact h.past x hx
    · rw [List.mem_singleton.mp hx]
      exact ⟨hknown, Nat.le_refl _⟩

end

/-! ## The pool -/

/-- The pool and the receive sides. `received` and `handed` are histories: what `recv` stored, with
the occupancy in which it did, and the buffers handed to the thread pool. -/
structure Sessions where
  recv : RecvSys
  received : List (MsgHdr × Bytes)
  handed : List RecvMem

/-- The occupancy of a connection. -/
def Pool.occupancy (p : Pool) (c : ConnId) : MsgHdr := ⟨c, (p.conn c).curSeq⟩

/-- One operation. -/
def Sessions.step (s : Sessions) (op : RecvOp) : Option Sessions :=
  (s.recv.step op).bind fun recv =>
    match op with
    | .read c ret _ =>
      (readRequestHandler c (s.recv.pool.conn c) ret).map fun out =>
        { recv := recv
          received := s.received ++ [(s.recv.pool.occupancy c, ret.stored)]
          handed := s.handed ++ out.msgs }
    | _ => some { s with recv := recv }

def Sessions.start (wait : Int) (nows : List Int) : Sessions := ⟨RecvSys.start wait nows, [], []⟩

/-- Reads are for connections in use. -/
def ReadsInUse (s : Sessions) : RecvOp → Prop
  | .read c _ _ => s.recv.inUse c = true
  | _ => True

instance (s : Sessions) : ∀ op, Decidable (ReadsInUse s op)
  | .read c _ _ => inferInstanceAs (Decidable (s.recv.inUse c = true))
  | .getConn .. => isTrue trivial
  | .insertRecyConnQueue .. => isTrue trivial
  | .closeConn _ => isTrue trivial
  | .freeConn _ => isTrue trivial
  | .recycle .. => isTrue trivial

/-- The addresses of the pool are known, and the receive sides are tracked. -/
structure Sessions.Inv (s : Sessions) : Prop where
  known : s.recv.pool.Known
  used : ∀ c, s.recv.inUse c = true → c ∈ s.recv.pool.pconnsQueue
  tracked : Tracked s.recv.pool.conn (· ∈ s.recv.pool.pconnsQueue) (s.recv.inUse · = true)
    s.received s.handed

/-- `c` is given up, and its sequence number goes up or stays. -/
theorem Sessions.Inv.put {s : Sessions} (h : s.Inv) {p : Pool} {c : ConnId} (hknown : p.Known)
    (hqueue : p.pconnsQueue = s.recv.pool.pconnsQueue)
    (hother : ∀ d, d ≠ c → p.conn d = s.recv.pool.conn d)
    (hself : p.conn c = s.recv.pool.conn c ∨ (s.recv.pool.conn c).curSeq < (p.conn c).curSeq) :
    Sessions.Inv { s with recv := s.recv.put p c false } := by
  have hused : ∀ d, Function.update s.recv.inUse c false d = true →
      d ≠ c ∧ s.recv.inUse d = true := by
    intro d hd
    by_cases hdc : d = c
    · rw [hdc, Function.update_self] at hd
      cases hd
    · rw [Function.update_of_ne hdc] at hd
      exact ⟨hdc, hd⟩
  refine ⟨hknown, fun d hd => ?_, h.tracked.move (fun d => ?_) fun d hd => ?_⟩
  · show d ∈ p.pconnsQueue
    rw [hqueue]
    exact h.used d (hused d hd).2
  · by_cases hdc : d = c
    · subst hdc
      rcases hself with hsame | hlt
      · exact .inl ⟨hsame ▸ Conn.SameRecv.refl _, fun hd => (hused d hd).2⟩
      · exact .inr ⟨fun hd => absurd rfl (hused d hd).1, fun _ => hlt⟩
    · exact .inl ⟨hother d hdc ▸ Conn.SameRecv.refl _, fun hd => (hused d hd).2⟩
  · show d ∈ p.pconnsQueue
    rw [hqueue]
    exact hd

/-- `free_conn`, from whatever caller. -/
theorem Sessions.Inv.freeConn {s : Sessions} (h : s.Inv) {c : ConnId}
    (hc : c ∈ s.recv.pool.pconnsQueue) :
    Sessions.Inv { s with recv := s.recv.put (s.recv.pool.freeConn c) c false } := by
  apply h.put (h.known.freeConn (h.known.lt hc)) rfl (fun d hd => Pool.freeConn_other _ hd)
  right
  rw [Pool.freeConn_curSeq, if_pos rfl]
  exact Nat.lt_succ_self _

theorem Sessions.Inv.insertRecy {s : Sessions} (h : s.Inv) {c : ConnId} (now : Int)
    (hc : c ∈ s.recv.pool.pconnsQueue) :
    Sessions.Inv { s with recv := s.recv.put (s.recv.pool.insertRecy c now) c false } := by
  apply h.put (h.known.insertRecy now (h.known.lt hc)) _
    (fun d hd => Pool.insertRecy_other _ hd now)
  · by_cases hmem : c ∈ s.recv.pool.recySet
    · left
      rw [Pool.insertRecy, if_pos hmem]
    · right
      rw [Pool.insertRecy_curSeq, if_pos ⟨rfl, hmem⟩]
      exact Nat.lt_succ_self _
  · unfold Pool.insertRecy
    split <;> rfl

/-- A read of a connection in use, and the release it may make. -/
theorem Sessions.Inv.read {s s' : Sessions} (h : s.Inv) {c : ConnId} {ret : RecvRet} {now : Int}
    (hused : s.recv.inUse c = true) (hs : s.step (.read c ret now) = some s') : s'.Inv := by
  obtain ⟨recv, hrecv, hs⟩ := Option.bind_eq_some_iff.mp hs
  obtain ⟨⟨hc, hfit⟩, hread⟩ := Option.ite_none_right_eq_some.mp hrecv
  obtain ⟨out, hout, -, htracked⟩ := h.tracked.read hused hc hfit
  simp only [hout, Option.map_some, Option.some.injEq] at hs
  simp only [RecvSys.read, hout, Option.map_some, Option.some.injEq] at hread
  subst hs hread
  have hmid : Sessions.Inv
      { recv := { s.recv with pool := s.recv.pool.setConn c out.conn }
        received := s.received ++ [(s.recv.pool.occupancy c, ret.stored)]
        handed := s.handed ++ out.msgs } :=
    ⟨⟨h.known.queue, h.known.free, h.known.recy⟩, h.used, htracked⟩
  cases hrelease : out.release with
  | none => exact hmid
  | some r =>
    cases r with
    | delayed => exact hmid.insertRecy now hc
    | immediate => exact hmid.freeConn hc

/-- Every operation that meets the condition keeps the invariant. -/
theorem Sessions.step_inv (s : Sessions) (op : RecvOp) (s' : Sessions) (h : s.Inv)
    (hok : ReadsInUse s op) (hs : s.step op = some s') : s'.Inv := by
  cases op with
  | read c ret now => exact h.read hok hs
  | getConn sockFd now =>
    obtain ⟨recv, hrecv, hs⟩ := Option.bind_eq_some_iff.mp hs
    obtain ⟨⟨c, p⟩, hget, rfl⟩ := Option.map_eq_some_iff.mp hrecv
    obtain rfl := Option.some.inj hs
    obtain ⟨hknown, hlt, hle⟩ := h.known.getConn hget
    have hmem : ∀ d, d ∈ s.recv.pool.pconnsQueue → d ∈ p.pconnsQueue := by
      intro d hd
      rw [hknown.queue]
      exact List.mem_range.mpr (Nat.lt_of_lt_of_le (h.known.lt hd) hle)
    have hc : c ∈ p.pconnsQueue := by
      rw [hknown.queue]
      exact List.mem_range.mpr hlt
    have hused : ∀ d, d ≠ c → Function.update s.recv.inUse c true d = true →
        s.recv.inUse d = true := by
      intro d hdc hd
      rwa [Function.update_of_ne hdc] at hd
    refine ⟨hknown, fun d hd => ?_, h.tracked.move (fun d => ?_) hmem⟩
    · by_cases hdc : d = c
      · rw [hdc]
        exact hc
      · exact hmem d (h.used d (hused d hdc hd))
    · by_cases hdc : d = c
      · subst hdc
        refine .inr ⟨fun _ => Pool.getConn_fresh hget, fun hd => ?_⟩
        have hne : d ≠ s.recv.pool.pconnsQueue.length := Nat.ne_of_lt (h.known.lt hd)
        show _ < (p.conn d).curSeq
        rw [Pool.getConn_curSeq hget hne, if_pos rfl]
        exact Nat.lt_succ_self _
      · exact .inl ⟨Pool.getConn_other hget hdc ▸ Conn.SameRecv.refl _, hused d hdc⟩
  | insertRecyConnQueue c now =>
    obtain ⟨recv, hrecv, hs⟩ := Option.bind_eq_some_iff.mp hs
    obtain ⟨hc, hrecv⟩ := Option.ite_none_right_eq_some.mp hrecv
    obtain rfl := Option.some.inj hrecv
    obtain rfl := Option.some.inj hs
    exact h.insertRecy now hc
  | closeConn c =>
    obtain ⟨recv, hrecv, hs⟩ := Option.bind_eq_some_iff.mp hs
    obtain ⟨hc, hrecv⟩ := Option.ite_none_right_eq_some.mp hrecv
    obtain rfl := Option.some.inj hrecv
    obtain rfl := Option.some.inj hs
    exact h.freeConn hc
  | freeConn c =>
    obtain ⟨recv, hrecv, hs⟩ := Option.bind_eq_some_iff.mp hs
    obtain ⟨hc, hrecv⟩ := Option.ite_none_right_eq_some.mp hrecv
    obtain rfl := Option.some.inj hrecv
    obtain rfl := Option.some.inj hs
    exact h.freeConn hc
  | recycle c now =>
    obtain ⟨recv, hrecv, hs⟩ := Option.bind_eq_some_iff.mp hs
    obtain ⟨⟨hc, -⟩, hrecv⟩ := Option.ite_none_right_eq_some.mp hrecv
    obtain rfl := Option.some.inj hrecv
    obtain rfl := Option.some.inj hs
    -- taking `c` out of the recycle set changes no connection
    apply h.put (h.known.recyConn hc) rfl (fun d hd => Pool.freeConn_other _ hd)
    right
    show _ < ((Pool.freeConn _ c).conn c).curSeq
    rw [Pool.freeConn_curSeq, if_pos rfl]
    exact Nat.lt_succ_self _

theorem Sessions.start_inv (wait : Int) (nows : List Int) : (Sessions.start wait nows).Inv :=
  ⟨connPoolInit_known wait nows, fun _ => Bool.noConfusion,
    Tracked.start.mpr fun _ => Bool.noConfusion⟩

/-- **Sessions are kept apart.** Connections are handed out, given up and recycled, and any number of
them read from, in any order, the operations that the callers should not make included, except that
reads are for connections in use. Then the packages handed on for an occupancy are those that the
reference finds in the bytes received during it, in their order: nothing of an earlier or later
occupant of the connection, nor of any other connection, gets among them. -/
theorem sessions_apart (wait : Int) (nows : List Int) (ops : List RecvOp) (s : Sessions)
    (hrun : run Sessions.step (Sessions.start wait nows) ops = some s)
    (hok : Meets Sessions.step ReadsInUse (Sessions.start wait nows) ops) (hdr : MsgHdr) :
    s.handed.filter (fun m => m.hdr == hdr) =
      (parse (under hdr s.received)).1.map (emit hdr.pconn hdr.curSeq) := by
  have hinv : s.Inv :=
    run_invariant Sessions.step_inv ops _ s (Sessions.start_inv wait nows) hok hrun
  exact hinv.tracked.handed hdr

/-- Two clients whose packages arrive in turns, and a third that takes the connection of the first,
which left in the middle of a package. -/
def mixedSessions : List RecvOp :=
  [.getConn 5 0, .getConn 6 0, .read 0 (.got [8, 0, 0]) 1, .read 1 (.got [10, 0, 1, 0, 0, 0, 0, 0]) 1,
    .read 0 (.got [0, 0, 0, 0, 0]) 2, .read 1 (.got [7]) 2, .read 0 (.got [12, 0]) 3,
    .read 0 (.got []) 4, .read 1 (.got [9]) 4, .recycle 0 84, .getConn 5 90,
    .read 0 (.got [8, 0, 2, 0, 0, 0, 0, 0]) 91]

theorem sessions_apart_mixed :
    ∃ s, run Sessions.step (Sessions.start 80 [0, 0]) mixedSessions = some s ∧
      s.handed.filter (fun m => m.hdr == ⟨0, 5⟩) = [emit 0 5 [8, 0, 2, 0, 0, 0, 0, 0]] := by
  obtain ⟨s, hrun, hbytes⟩ : ∃ s,
      run Sessions.step (Sessions.start 80 [0, 0]) mixedSessions = some s ∧
        under ⟨0, 5⟩ s.received = [[8, 0, 2, 0, 0, 0, 0, 0]].flatten := ⟨_, rfl, rfl⟩
  have hok : Meets Sessions.step ReadsInUse (Sessions.start 80 [0, 0]) mixedSessions := by decide
  have hparse : parse [[8, 0, 2, 0, 0, 0, 0, 0]].flatten = ([[8, 0, 2, 0, 0, 0, 0, 0]], []) := by
    apply parse_packages
    intro p hp
    obtain rfl := List.mem_singleton.mp hp
    exact ⟨rfl, by decide, by decide⟩
  refine ⟨s, hrun, ?_⟩
  rw [sessions_apart 80 [0, 0] mixedSessions s hrun hok, hbytes, hparse]
  rfl

end Mgx
