import Mgx.SendQueue

/-
  Write interest.

  `EPOLLOUT` is put into a connection's interest set when a message is left
  unfinished, and taken out when the write handler has finished it. epoll is
  level-triggered: as long as it is in, a writable socket calls the handler.

  Correspondence (C++ ↔ Lean):
    `event_accept`, from `get_conn` to `EPOLL_CTL_ADD`  ↔ `Conn.opened`
    one element of the list in `send_msg_th_func`       ↔ `WriteAct.iteration`
    `c->w_handler(c)` in `epoll_process_events`         ↔ `WriteAct.handler`

  `epoll_ctl` succeeds, and an iteration and a handler call are one step each.
  epoll reports `EPOLLOUT` only of a connection that has it in its interest
  set. An element of the list whose number is not the connection's does not
  touch the connection (`SendSys.sendLoop_write`), and a handler call in the whole
  sender is one here (`SendSys.writable_write`).

  What is proved: `write_interest_iff`. Interest and pending data go together all
  along a run exactly if every handler call gets bytes accepted or `EAGAIN`, and
  no first attempt at an empty package gets `EAGAIN`: on any other error the
  write handler drops the message but stays registered. As long as they go together
  the handler is called with something to send (`Conn.Matched.handler_pending`).
-/
namespace Mgx
open CMem Runs

variable {b : Build}

/-- `get_one_to_use`, `fd = sock_fd`, then `EPOLL_CTL_ADD` of `EPOLLIN | EPOLLRDHUP`. -/
def Conn.opened (c : Conn) (fd now : Int) : Conn :=
  { c.occupy fd now with events := ⟨true, true, false⟩ }

/-- What the two threads do to a connection; `rs` is what `send` answers. -/
inductive WriteAct (b : Build) where
  | iteration (a : Addr) (m : SendBuf b) (rs : List SendRet)
  | handler (rs : List SendRet)

def Conn.writeStep (c : Conn) : WriteAct b → Option Conn
  | .iteration a m rs =>
    if c.throwSendCnt > 0 then some c else (sendFirst b a m.body c rs).map SendOut.conn
  | .handler rs =>
    if c.events.epollout then (sendMsgHandler c rs).map SendOut.conn else none

/-- `EPOLLOUT` is in `events` exactly while `throw_send_cnt > 0`, and then there is something to
send. -/
structure Conn.Matched (c : Conn) : Prop where
  armed : c.events.epollout = true ↔ 0 < c.throwSendCnt
  pending : 0 < c.throwSendCnt → c.psendMemAddr ≠ none ∧ 0 < c.restSendSize

/-- A handler call gets bytes accepted or `EAGAIN`; a first attempt at an empty package does not get
`EAGAIN`. -/
def KeepsInterest (c : Conn) : WriteAct b → Prop
  | .iteration _ m rs => c.throwSendCnt ≤ 0 → payloadSize b m.body = 0 →
      firstAnswer rs ≠ some (.fail .eagain)
  | .handler rs =>
    firstAnswer rs = some (.fail .eagain) ∨ ∃ n, 0 < n ∧ firstAnswer rs = some (.sent n)

/-! ## Sizes -/

theorem payloadSize_lt (b : Build) (body : Bytes) : payloadSize b body < 2 ^ 32 := by
  cases b with
  | tcp =>
    have h0 := (body.getD 0 0).toNat_lt
    have h1 := (body.getD 1 0).toNat_lt
    simp only [payloadSize, pkgSize]
    omega
  | http => exact Nat.mod_lt _ (by decide)

theorem subU32_lt (a b : Nat) : subU32 a b < 2 ^ 32 := Nat.mod_lt _ (by decide)

/-! ## What needs no condition -/

/-- The busy flag is not negative, and what is left to send fits its field. -/
structure Conn.Sized (c : Conn) : Prop where
  busy : 0 ≤ c.throwSendCnt
  fits : 0 < c.throwSendCnt → c.restSendSize < 2 ^ 32

theorem Conn.opened_sized (c : Conn) (fd now : Int) : (c.opened fd now).Sized :=
  ⟨Int.le_refl 0, fun h => absurd h (Int.lt_irrefl 0)⟩

theorem Conn.opened_matched (c : Conn) (fd now : Int) : (c.opened fd now).Matched where
  armed := iff_of_false Bool.false_ne_true (Int.lt_irrefl 0)
  pending h := absurd h (Int.lt_irrefl 0)

theorem Conn.Sized.idle {c : Conn} (h : c.throwSendCnt = 0) : c.Sized :=
  ⟨by omega, fun hpos => by omega⟩

theorem Conn.writeStep_sized (c : Conn) (act : WriteAct b) (c' : Conn) (h : c.Sized)
    (hs : c.writeStep act = some c') : c'.Sized := by
  have hbusy := h.busy
  cases act with
  | iteration a m rs =>
    simp only [writeStep] at hs
    split at hs
    · exact Option.some.inj hs ▸ h
    · obtain ⟨out, hout, rfl⟩ := Option.map_eq_some_iff.mp hs
      obtain ⟨n, -, -, -, -, ⟨-, -, -, hc⟩ | ⟨-, -, -, hc⟩ | ⟨-, -, hc⟩ | ⟨-, -, hc⟩ | ⟨-, -, hc⟩⟩ :=
        sendFirst_cases hout
      · exact hc ▸ .idle rfl
      · rw [hc]
        exact ⟨Int.add_nonneg hbusy (by decide), fun _ => subU32_lt ..⟩
      · exact hc ▸ .idle rfl
      · rw [hc]
        exact ⟨Int.add_nonneg hbusy (by decide), fun _ => payloadSize_lt ..⟩
      · exact hc ▸ .idle rfl
  | handler rs =>
    simp only [writeStep, Option.ite_none_right_eq_some] at hs
    obtain ⟨out, hout, rfl⟩ := Option.map_eq_some_iff.mp hs.2
    obtain ⟨n, -, ⟨-, -, rfl⟩ | ⟨-, -, rfl⟩ | ⟨-, rfl⟩ | ⟨-, rfl⟩⟩ := sendMsgHandler_cases hout
    · exact .idle rfl
    · exact ⟨hbusy, fun _ => subU32_lt ..⟩
    · exact h
    · exact .idle rfl

/-! ## The step lemma -/

/-- A connection with nothing pending and no interest. -/
theorem Conn.Matched.idle {c : Conn} (hcnt : c.throwSendCnt = 0)
    (hout : c.events.epollout = false) : c.Matched where
  armed := by rw [hcnt, hout]; exact iff_of_false Bool.false_ne_true (Int.lt_irrefl 0)
  pending h := absurd hcnt (by omega)

/-- A connection registered for what it has left. -/
theorem Conn.Matched.waiting {c : Conn} (hcnt : 0 < c.throwSendCnt)
    (hout : c.events.epollout = true) (hmem : c.psendMemAddr ≠ none) (hrest : 0 < c.restSendSize) :
    c.Matched where
  armed := iff_of_true hout hcnt
  pending _ := ⟨hmem, hrest⟩

/-- A first attempt at a message keeps interest and data together, unless an empty package is left
pending. -/
theorem sendFirst_matched {a : Addr} {body : Bytes} {c : Conn} {rs : List SendRet} {out : SendOut}
    (hcnt : c.throwSendCnt = 0) (hoff : c.events.epollout = false)
    (h : sendFirst b a body c rs = some out) :
    out.conn.Matched ↔ (payloadSize b body = 0 → firstAnswer rs ≠ some (.fail .eagain)) := by
  simp only [sendFirst, Option.map_eq_some_iff] at h
  obtain ⟨n, hn, rfl⟩ := h
  have hsize := payloadSize_lt b body
  rcases sendUninterrupt_answer hn with ⟨k, hk, hle, rfl⟩ | ⟨hk, rfl⟩ | ⟨e, he, hk, rfl⟩
  · refine iff_of_true ?_ fun _ => by rw [hk]; simp
    have hle : k ≤ payloadSize b body := hle
    by_cases h0 : k = 0
    · subst h0
      rw [if_neg (by decide), if_pos (by decide)]
      exact .idle rfl hoff
    · rw [if_pos (by omega)]
      by_cases hall : (k : Int) = (Conn.install b a body c).restSendSize
      · rw [if_pos hall]
        exact .idle rfl hoff
      · rw [if_neg hall]
        have hlt : k < payloadSize b body := by
          have : k ≠ payloadSize b body := fun h => hall (congrArg Nat.cast h)
          omega
        have hrest : subU32 (payloadSize b body) k = payloadSize b body - k :=
          subU32_of_le hle hsize
        refine .waiting ?_ rfl (Option.some_ne_none a) ?_
        · simp only [Conn.armOut, Conn.advanceSend, Conn.install, hcnt]
          decide
        · simp only [Conn.armOut, Conn.advanceSend, Conn.install, Int.toNat_natCast, hrest]
          omega
  · rw [if_neg (by decide), if_neg (by decide), if_pos rfl, hk]
    have hpos : 0 < (Conn.armOut { Conn.install b a body c with
        throwSendCnt := (Conn.install b a body c).throwSendCnt + 1 }).throwSendCnt := by
      simp only [Conn.armOut, Conn.install, hcnt]
      decide
    constructor
    · intro hm h0
      have hrest : 0 < payloadSize b body := (hm.pending hpos).2
      omega
    · intro hne
      have hrest : payloadSize b body ≠ 0 := fun h0 => hne h0 rfl
      exact .waiting hpos rfl (Option.some_ne_none a) (Nat.pos_of_ne_zero hrest)
  · rw [if_neg (by decide), if_neg (by decide), if_neg (by decide)]
    refine iff_of_true (.idle rfl hoff) fun _ => ?_
    rw [hk]
    simpa using he

/-- So does a call of the write handler, unless it ends the message on an error. -/
theorem sendMsgHandler_matched {c : Conn} {rs : List SendRet} {out : SendOut} (hm : c.Matched)
    (hsized : c.Sized) (hon : c.events.epollout = true) (h : sendMsgHandler c rs = some out) :
    out.conn.Matched ↔ firstAnswer rs = some (.fail .eagain) ∨
      ∃ n, 0 < n ∧ firstAnswer rs = some (.sent n) := by
  have hcnt : 0 < c.throwSendCnt := hm.armed.mp hon
  obtain ⟨hmem, hrest⟩ := hm.pending hcnt
  -- what is done without `EPOLLOUT` removed stays registered with nothing pending
  have hleft : ∀ call, ¬ (sendMsgHandlerDone c call).conn.Matched :=
    fun call hm' => Int.lt_irrefl 0 (hm'.armed.mp hon)
  simp only [sendMsgHandler, Option.map_eq_some_iff] at h
  obtain ⟨n, hn, rfl⟩ := h
  rcases sendUninterrupt_answer hn with ⟨k, hk, hle, rfl⟩ | ⟨hk, rfl⟩ | ⟨e, he, hk, rfl⟩
  · by_cases h0 : k = 0
    · subst h0
      rw [if_neg (by decide), if_neg (by decide), hk]
      refine iff_of_false (hleft _) ?_
      rintro (h | ⟨n, hpos, h⟩)
      · simp at h
      · simp only [Option.some.injEq, SendRet.sent.injEq] at h
        omega
    · refine iff_of_true ?_ (.inr ⟨k, Nat.pos_of_ne_zero h0, hk⟩)
      rw [if_pos (by omega)]
      by_cases hall : (k : Int) = c.restSendSize
      · rw [if_pos hall]
        exact .idle rfl rfl
      · rw [if_neg hall]
        have hsub : subU32 c.restSendSize k = c.restSendSize - k :=
          subU32_of_le hle (hsized.fits hcnt)
        refine .waiting hcnt hon hmem ?_
        simp only [Conn.advanceSend, Int.toNat_natCast, hsub]
        omega
  · rw [if_neg (by decide), if_pos rfl]
    exact iff_of_true hm (.inl hk)
  · rw [if_neg (by decide), if_neg (by decide), hk]
    refine iff_of_false (hleft _) ?_
    rintro (h | ⟨n, -, h⟩)
    · exact he (by simpa using h)
    · simp at h

theorem Conn.writeStep_matched (c : Conn) (act : WriteAct b) (c' : Conn)
    (h : c.Sized ∧ c.Matched) (hs : c.writeStep act = some c') :
    c'.Matched ↔ KeepsInterest c act := by
  obtain ⟨hsized, hm⟩ := h
  have hbusy := hsized.busy
  cases act with
  | iteration a m rs =>
    simp only [writeStep] at hs
    split at hs
    · -- a busy connection is passed over
      rw [← Option.some.inj hs]
      exact iff_of_true hm fun hle => absurd hle (by omega)
    · obtain ⟨out, hout, rfl⟩ := Option.map_eq_some_iff.mp hs
      have hcnt : c.throwSendCnt = 0 := by omega
      have hoff : c.events.epollout = false := by
        rw [← Bool.not_eq_true, hm.armed, hcnt]
        exact Int.lt_irrefl 0
      rw [sendFirst_matched hcnt hoff hout]
      exact ⟨fun h _ => h, fun h => h (Int.le_of_eq hcnt)⟩
  | handler rs =>
    simp only [writeStep, Option.ite_none_right_eq_some] at hs
    obtain ⟨out, hout, rfl⟩ := Option.map_eq_some_iff.mp hs.2
    exact sendMsgHandler_matched hm hsized hs.1 hout

/-- The write handler is called with something to send. -/
theorem Conn.Matched.handler_pending {c c' : Conn} {rs : List SendRet} (h : c.Matched)
    (hs : c.writeStep (.handler rs : WriteAct b) = some c') :
    0 < c.throwSendCnt ∧ c.psendMemAddr ≠ none ∧ 0 < c.restSendSize := by
  simp only [writeStep, Option.ite_none_right_eq_some] at hs
  have hcnt := h.armed.mp hs.1
  exact ⟨hcnt, h.pending hcnt⟩

/-! ## Inside the whole sender -/

theorem SendSys.conn_dropStale (s : SendSys b) (i c : Nat) : (s.dropStale i).conn c = s.conn c :=
  rfl

theorem SendSys.conn_skipBusy (s : SendSys b) (i c : Nat) : (s.skipBusy i).conn c = s.conn c := rfl

/-- A turn of the send thread's loop is an iteration at the connection it concerns, and leaves every
other connection alone. -/
theorem SendSys.sendLoop_write {s s' : SendSys b} {rs : List SendRet}
    (h : s.sendLoop rs = some s') (c : ConnId) : s'.conn c = s.conn c ∨
      ∃ a m, (s.conn c).writeStep (.iteration a m rs : WriteAct b) = some (s'.conn c) := by
  rcases sendLoop_cases h with ⟨-, rfl⟩ | ⟨i, a, m, -, -, -, hcases⟩
  · exact .inl rfl
  · rcases hcases with ⟨-, rfl⟩ | ⟨-, rfl⟩ | ⟨-, -, rfl⟩ | ⟨-, hidle, hsend⟩
    · exact .inl rfl
    · exact .inl (s.conn_dropStale i c)
    · exact .inl (s.conn_skipBusy i c)
    · simp only [sendOne, Option.map_eq_some_iff] at hsend
      obtain ⟨out, hout, rfl⟩ := hsend
      by_cases hc : c = m.hdr.pconn
      · subst hc
        refine .inr ⟨a, m, ?_⟩
        have hself : (s.server.pool.setConn m.hdr.pconn out.conn).conn m.hdr.pconn = out.conn :=
          Pool.setConn_self ..
        simp only [Conn.writeStep, if_neg (Int.not_lt.mpr hidle), hout, Option.map_some]
        exact congrArg some hself.symm
      · exact .inl (Pool.setConn_other _ _ _ hc)

/-- A call of the write handler on a live buffer is a call of it in this machine. -/
theorem SendSys.writable_write {s s' : SendSys b} {c : ConnId} {rs : List SendRet}
    (h : s.writable c rs = some s') (hlive : ∀ a ∈ (s.conn c).psendMemAddr, a ∉ s.deleted)
    (hon : (s.conn c).events.epollout = true) :
    (s.conn c).writeStep (.handler rs : WriteAct b) = some (s'.conn c) := by
  have hno : ¬ ∃ a ∈ (s.conn c).psendMemAddr, a ∈ s.deleted := fun ⟨a, ha, hd⟩ => hlive a ha hd
  simp only [writable, if_neg hno, Option.map_eq_some_iff] at h
  obtain ⟨out, hout, rfl⟩ := h
  have hself : (s.server.pool.setConn c out.conn).conn c = out.conn := Pool.setConn_self ..
  simp only [Conn.writeStep, if_pos hon, hout, Option.map_some]
  exact congrArg some hself.symm

/-! ## Whole runs -/

/-- **When write interest matches pending data.** Along a run of the two threads from an accepted
connection `EPOLLOUT` is in `events` exactly while `throw_send_cnt > 0`, with something to send, if
and only if every handler call gets bytes accepted or `EAGAIN` and no first attempt at an empty
package gets `EAGAIN`. -/
theorem write_interest_iff (c : Conn) (fd now : Int) (acts : List (WriteAct b)) (c' : Conn)
    (h : run Conn.writeStep (c.opened fd now) acts = some c') :
    (∀ pre post m, acts = pre ++ post → run Conn.writeStep (c.opened fd now) pre = some m →
        m.Matched) ↔ Meets Conn.writeStep KeepsInterest (c.opened fd now) acts := by
  have hstart : (c.opened fd now).Sized ∧ (c.opened fd now).Matched :=
    ⟨c.opened_sized fd now, c.opened_matched fd now⟩
  have hstep : ∀ (x : Conn) (act : WriteAct b) x', (x.Sized ∧ x.Matched) →
      x.writeStep act = some x' → (x'.Sized ∧ x'.Matched ↔ KeepsInterest x act) := by
    intro x act x' hx hs
    rw [and_iff_right (x.writeStep_sized act x' hx.1 hs)]
    exact x.writeStep_matched act x' hx hs
  rw [← run_invariant_iff hstep acts _ c' hstart h]
  constructor
  · intro hall pre post m heq hm
    exact ⟨run_invariant_all Conn.writeStep_sized hstart.1 hm, hall pre post m heq hm⟩
  · intro hall pre post m heq hm
    exact (hall pre post m heq hm).2

/-- The kernel takes 3 of the 8 bytes of a message, has no room at first, then takes 2 and 3. -/
theorem write_interest_iff_short : ∃ c', run Conn.writeStep (Conn.new.opened 4 0)
      ([.iteration 0 pingReply [.sent 3], .handler [.fail .eagain], .handler [.fail .eintr, .sent 2],
        .handler [.sent 3]] : List (WriteAct .tcp)) = some c' ∧ c'.Matched := by
  obtain ⟨c', hrun⟩ : ∃ c', run Conn.writeStep (Conn.new.opened 4 0)
      ([.iteration 0 pingReply [.sent 3], .handler [.fail .eagain], .handler [.fail .eintr, .sent 2],
        .handler [.sent 3]] : List (WriteAct .tcp)) = some c' := ⟨_, rfl⟩
  have hsize : payloadSize .tcp pingReply.body ≠ 0 := by decide
  refine ⟨c', hrun, (write_interest_iff Conn.new 4 0 _ c' hrun).mpr ?_ _ [] c' rfl hrun⟩
  exact ⟨fun _ h0 => absurd h0 hsize, fun _ _ => ⟨.inl rfl, fun _ _ =>
    ⟨.inr ⟨2, by decide, rfl⟩, fun _ _ => ⟨.inr ⟨3, by decide, rfl⟩, fun _ _ => trivial⟩⟩⟩⟩

/-- The peer resets the connection while 5 bytes are left: the buffer is deleted, nothing is pending,
and `EPOLLOUT` stays in, so that the handler is called again, with a null buffer. -/
theorem write_interest_stuck : ∃ c', run Conn.writeStep (Conn.new.opened 4 0)
      ([.iteration 0 pingReply [.sent 3], .handler [.fail .econnreset], .handler [.fail .other]] :
        List (WriteAct .tcp)) = some c' ∧
      c'.events.epollout = true ∧ c'.throwSendCnt = 0 ∧ c'.psendMemAddr = none ∧ ¬ c'.Matched := by
  obtain ⟨c', hrun, hout, hcnt, hmem⟩ : ∃ c', run Conn.writeStep (Conn.new.opened 4 0)
      ([.iteration 0 pingReply [.sent 3], .handler [.fail .econnreset], .handler [.fail .other]] :
        List (WriteAct .tcp)) = some c' ∧
      c'.events.epollout = true ∧ c'.throwSendCnt = 0 ∧ c'.psendMemAddr = none :=
    ⟨_, rfl, rfl, rfl, rfl⟩
  refine ⟨c', hrun, hout, hcnt, hmem, fun hm => ?_⟩
  have hpos := hm.armed.mp hout
  omega

end Mgx
