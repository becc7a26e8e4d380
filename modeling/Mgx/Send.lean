import Mgx.Comm

/-
  Sending one message.

  The send thread takes a message off the list and makes a first attempt; what
  the kernel does not accept is left to the write handler, which the epoll
  thread calls on EPOLLOUT.

  Correspondence (C++ ↔ Lean):
    the buffer given to `send_msg`                   ↔ `SendBuf`
    result of one `send`                             ↔ `SendRet`
    `send_uninterrupt` (net/mgx_socket.cpp)          ↔ `sendUninterrupt`
    `send_msg_th_func`, from `psend_buf = ..` on     ↔ `sendFirst`
    `send_msg_handler` (net/mgx_socket_request.cpp)  ↔ `sendMsgHandler`
    `epoll_oper_event(.., EPOLLOUT, ADD / REMOVE)`   ↔ `Conn.armOut`, `Conn.disarmOut`
    the last `send` of a call                        ↔ `SendCall`
    `delete[] psend_mem_addr`, `sem_post`            ↔ `SendOut.deleted`, `SendOut.posted`

  What is proved: `wire_exact_iff`. The bytes the kernel accepts for a message
  are its payload, and none of them belongs to the message header, exactly when
  the payload is empty or the first `send` that is not interrupted takes all of
  it: a write handler that is called with bytes left sends from the start of the
  buffer, where the message header is.
-/
namespace Mgx
open CMem

/-- What `rest_send_size` is set to: the `pkg_size` field of the package, or `strlen` of the
response, stored in an `unsigned int`. -/
def payloadSize : Build → Bytes → Nat
  | .tcp, body => pkgSize body
  | .http, body => strlen body % 2 ^ 32

/-- A buffer given to `send_msg`: the message header (`hdrTail` is what `mgx_msg_hdr_t` holds under
`USE_HTTP` after `cur_seq`), then a whole package or a NUL-terminated response. -/
structure SendBuf (b : Build) where
  hdr : MsgHdr
  hdrTail : Bytes
  body : Bytes
  hdr_size : 16 + hdrTail.length = msgHdrSize b
  whole : match b with
    | .tcp => pkgSize body ≤ body.length
    | .http => (0 : UInt8) ∈ body

/-- The message header as it lies in memory. -/
def SendBuf.hdrBytes {b : Build} (m : SendBuf b) : Bytes :=
  leBytes 8 m.hdr.pconn ++ leBytes 8 m.hdr.curSeq ++ m.hdrTail

/-- The buffer as it lies in memory. -/
def SendBuf.bytes {b : Build} (m : SendBuf b) : Bytes := m.hdrBytes ++ m.body

/-- The bytes the peer is to receive: `pkg_size` bytes, or the NUL-terminated response. -/
def SendBuf.payload : {b : Build} → SendBuf b → Bytes
  | .tcp, m => m.body.take (pkgSize m.body)
  | .http, m => cstr m.body

theorem SendBuf.length_hdrBytes {b : Build} (m : SendBuf b) :
    m.hdrBytes.length = msgHdrSize b := by
  have := m.hdr_size
  simp only [hdrBytes, List.length_append, length_leBytes]; omega

/-- The payload lies right behind the message header. -/
theorem SendBuf.payload_eq {b : Build} (m : SendBuf b) :
    m.payload = (m.bytes.drop (msgHdrSize b)).take m.payload.length := by
  rw [bytes, ← m.length_hdrBytes, List.drop_left]
  cases b with
  | tcp =>
    have hw : pkgSize m.body ≤ m.body.length := m.whole
    simp only [payload, List.length_take, Nat.min_eq_left hw]
  | http => simp only [payload]; exact cstr_eq_take m.body

theorem SendBuf.payloadSize_le {b : Build} (m : SendBuf b) :
    payloadSize b m.body ≤ m.payload.length := by
  cases b with
  | tcp =>
    have hw : pkgSize m.body ≤ m.body.length := m.whole
    simp only [payload, payloadSize, List.length_take, Nat.min_eq_left hw, Nat.le_refl]
  | http => exact Nat.mod_le _ _

/-! ## The two senders -/

/-- What one `send` did: accepted `n` bytes, or failed. -/
inductive SendRet where
  | sent (n : Nat)
  | fail (e : Errno)
  deriving DecidableEq, Repr

/-- `send_uninterrupt`, given what its `send` calls answer: the number of bytes accepted, -1 on
`EAGAIN`, -2 on another error. `none` when it has not returned yet, or when an answer is not one
the kernel gives for a buffer of `size` bytes. -/
def sendUninterrupt (size : Nat) : List SendRet → Option Int
  | [] => none
  | .sent n :: _ => if n ≤ size then some n else none
  | .fail .eagain :: _ => some (-1)
  | .fail .eintr :: rs => sendUninterrupt size rs
  | .fail _ :: _ => some (-2)

/-- The last `send` of a call: where it sent from (`none` for a null pointer), what it returned. -/
structure SendCall where
  from? : Option SendPtr
  ret : Int
  deriving DecidableEq, Repr

/-- What one call of a sender did. -/
structure SendOut where
  conn : Conn
  call : SendCall
  deleted : List Addr
  posted : Bool

def Conn.armOut (c : Conn) : Conn := { c with events := { c.events with epollout := true } }

def Conn.disarmOut (c : Conn) : Conn := { c with events := { c.events with epollout := false } }

/-- `psend_buf += n; rest_send_size -= n`. -/
def Conn.advanceSend (c : Conn) (n : Nat) : Conn :=
  { c with
    psendBuf := c.psendBuf.map (fun p => { p with off := p.off + n })
    restSendSize := subU32 c.restSendSize n }

/-- `psend_buf`, `rest_send_size` and `psend_mem_addr` set to a message. -/
def Conn.install (b : Build) (a : Addr) (body : Bytes) (c : Conn) : Conn :=
  { c with
    psendBuf := some ⟨a, msgHdrSize b⟩
    restSendSize := payloadSize b body
    psendMemAddr := some a }

/-- The first attempt of `send_msg_th_func` at the message in the buffer `a`. -/
def sendFirst (b : Build) (a : Addr) (body : Bytes) (c : Conn) (rs : List SendRet) :
    Option SendOut :=
  let c := Conn.install b a body c
  (sendUninterrupt c.restSendSize rs).map fun (n : Int) =>
    let call := ⟨c.psendBuf, n⟩
    if n > 0 then
      if n = c.restSendSize then
        ⟨{ c with throwSendCnt := 0, psendMemAddr := none }, call, [a], false⟩
      else
        let c := c.advanceSend n.toNat
        ⟨Conn.armOut { c with throwSendCnt := c.throwSendCnt + 1 }, call, [], false⟩
    else if n = 0 then ⟨{ c with throwSendCnt := 0 }, call, [], false⟩
    else if n = -1 then ⟨Conn.armOut { c with throwSendCnt := c.throwSendCnt + 1 }, call, [], false⟩
    else ⟨{ c with throwSendCnt := 0, psendMemAddr := none }, call, [a], false⟩

/-- The end of `send_msg_handler`: post, clear the busy flag, delete the buffer. -/
def sendMsgHandlerDone (c : Conn) (call : SendCall) : SendOut where
  conn := { c with throwSendCnt := 0, psendMemAddr := none }
  call := call
  deleted := c.psendMemAddr.toList
  posted := true

/-- `send_msg_handler`. -/
def sendMsgHandler (c : Conn) (rs : List SendRet) : Option SendOut :=
  (sendUninterrupt c.restSendSize rs).map fun (n : Int) =>
    let call := ⟨c.psendMemAddr.map (⟨·, 0⟩), n⟩
    if n > 0 then
      if n = c.restSendSize then sendMsgHandlerDone c.disarmOut call
      else ⟨c.advanceSend n.toNat, call, [], false⟩
    else if n = -1 then ⟨c, call, [], false⟩
    else sendMsgHandlerDone c call

/-! ## The whole transmission of one message -/

/-- The write-handler calls that carry a message on, up to the one that completes it, which must be
the last: the busy flag `throw_send_cnt` is down again. -/
def resume : Conn → List (List SendRet) → Option (List SendCall)
  | _, [] => none
  | c, rs :: rss => (sendMsgHandler c rs).bind fun out =>
    if out.conn.throwSendCnt = 0 then (if rss.isEmpty then some [out.call] else none)
    else (resume out.conn rss).map (fun calls => out.call :: calls)

/-- The `send` calls made for a message from the first attempt to completion. -/
def transmit (b : Build) (a : Addr) (body : Bytes) (c : Conn) (first : List SendRet)
    (later : List (List SendRet)) : Option (List SendCall) :=
  (sendFirst b a body c first).bind fun out =>
    if out.conn.throwSendCnt = 0 then (if later.isEmpty then some [out.call] else none)
    else (resume out.conn later).map (fun calls => out.call :: calls)

/-- The bytes of the buffer a call made the kernel accept. -/
def SendCall.wire {b : Build} (m : SendBuf b) (call : SendCall) : Bytes :=
  match call.from? with
  | none => []
  | some p => (m.bytes.drop p.off).take call.ret.toNat

/-- The peer gets exactly the payload, and no call that sends something starts in the message
header. -/
def WireExact {b : Build} (m : SendBuf b) (calls : List SendCall) : Prop :=
  calls.flatMap (SendCall.wire m) = m.payload ∧
    ∀ call ∈ calls, ∀ p, call.from? = some p → 0 < call.ret → msgHdrSize b ≤ p.off

/-- The answer of the first `send` that is not interrupted. -/
def firstAnswer (rs : List SendRet) : Option SendRet := rs.find? (· != .fail .eintr)

/-- `send_uninterrupt` returns what the first answer that is not an interrupt says. -/
theorem sendUninterrupt_answer {size : Nat} {rs : List SendRet} {n : Int}
    (h : sendUninterrupt size rs = some n) :
    (∃ k : Nat, firstAnswer rs = some (.sent k) ∧ k ≤ size ∧ n = k) ∨
    (firstAnswer rs = some (.fail .eagain) ∧ n = -1) ∨
    (∃ e, e ≠ .eagain ∧ firstAnswer rs = some (.fail e) ∧ n = -2) := by
  induction rs with
  | nil => simp [sendUninterrupt] at h
  | cons r rs ih =>
    by_cases hr : r = .fail .eintr
    · -- the loop goes on with the next answer
      subst hr
      have hfirst : firstAnswer (.fail .eintr :: rs) = firstAnswer rs :=
        List.find?_cons_of_neg (by decide)
      rw [hfirst]
      exact ih h
    · have hfirst : firstAnswer (r :: rs) = some r := List.find?_cons_of_pos (by simpa using hr)
      rw [hfirst]
      cases r with
      | sent k =>
        simp only [sendUninterrupt, Option.ite_none_right_eq_some, Option.some.injEq] at h
        exact .inl ⟨k, rfl, h.1, h.2.symm⟩
      | fail e =>
        cases e with
        | eagain => exact .inr (.inl ⟨rfl, (Option.some.inj h).symm⟩)
        | eintr => exact absurd rfl hr
        | econnreset => exact .inr (.inr ⟨_, by decide, rfl, (Option.some.inj h).symm⟩)
        | other => exact .inr (.inr ⟨_, by decide, rfl, (Option.some.inj h).symm⟩)

theorem sendUninterrupt_le {size : Nat} {rs : List SendRet} {n : Int}
    (h : sendUninterrupt size rs = some n) : n ≤ size := by
  rcases sendUninterrupt_answer h with ⟨k, -, hle, rfl⟩ | ⟨-, rfl⟩ | ⟨e, -, -, rfl⟩
  · exact Int.ofNat_le.mpr hle
  · omega
  · omega

theorem sendUninterrupt_eq_iff {size k : Nat} {rs : List SendRet} {n : Int}
    (h : sendUninterrupt size rs = some n) : n = k ↔ firstAnswer rs = some (.sent k) := by
  rcases sendUninterrupt_answer h with ⟨j, hj, -, rfl⟩ | ⟨hj, rfl⟩ | ⟨e, -, hj, rfl⟩
  · rw [hj]
    simp only [Int.natCast_inj, Option.some.injEq, SendRet.sent.injEq]
  · rw [hj]
    refine iff_of_false (by omega) ?_
    simp
  · rw [hj]
    refine iff_of_false (by omega) ?_
    simp

/-- Everything one call of `send_msg_handler` can do. -/
theorem sendMsgHandler_cases {c : Conn} {rs : List SendRet} {out : SendOut}
    (h : sendMsgHandler c rs = some out) : ∃ n : Int, n ≤ c.restSendSize ∧
      ((0 < n ∧ n = c.restSendSize ∧
          out = sendMsgHandlerDone c.disarmOut ⟨c.psendMemAddr.map (⟨·, 0⟩), n⟩) ∨
       (0 < n ∧ n < c.restSendSize ∧
          out = ⟨c.advanceSend n.toNat, ⟨c.psendMemAddr.map (⟨·, 0⟩), n⟩, [], false⟩) ∨
       (n < 0 ∧ out = ⟨c, ⟨c.psendMemAddr.map (⟨·, 0⟩), n⟩, [], false⟩) ∨
       (n ≤ 0 ∧ out = sendMsgHandlerDone c ⟨c.psendMemAddr.map (⟨·, 0⟩), n⟩)) := by
  simp only [sendMsgHandler, Option.map_eq_some_iff] at h
  obtain ⟨n, hn, rfl⟩ := h
  have hle := sendUninterrupt_le hn
  refine ⟨n, hle, ?_⟩
  by_cases hpos : n > 0
  · rw [if_pos hpos]
    by_cases hfull : n = c.restSendSize
    · rw [if_pos hfull]; exact .inl ⟨hpos, hfull, rfl⟩
    · rw [if_neg hfull]; exact .inr (.inl ⟨hpos, by omega, rfl⟩)
  · rw [if_neg hpos]
    by_cases hm : n = -1
    · rw [if_pos hm]; exact .inr (.inr (.inl ⟨by omega, rfl⟩))
    · rw [if_neg hm]; exact .inr (.inr (.inr ⟨by omega, rfl⟩))

/-- Everything the first attempt can do. -/
theorem sendFirst_cases {b : Build} {a : Addr} {body : Bytes} {c : Conn} {rs : List SendRet}
    {out : SendOut} (h : sendFirst b a body c rs = some out) :
    ∃ n : Int, sendUninterrupt (payloadSize b body) rs = some n ∧ n ≤ payloadSize b body ∧
      out.call = ⟨some ⟨a, msgHdrSize b⟩, n⟩ ∧ out.posted = false ∧
      ((0 < n ∧ n = payloadSize b body ∧ out.deleted = [a] ∧
          out.conn = { Conn.install b a body c with throwSendCnt := 0, psendMemAddr := none }) ∨
       (0 < n ∧ n < payloadSize b body ∧ out.deleted = [] ∧
          out.conn = Conn.armOut { (Conn.install b a body c).advanceSend n.toNat with
            throwSendCnt := c.throwSendCnt + 1 }) ∨
       (n = 0 ∧ out.deleted = [] ∧
          out.conn = { Conn.install b a body c with throwSendCnt := 0 }) ∨
       (n < 0 ∧ out.deleted = [] ∧
          out.conn = Conn.armOut { Conn.install b a body c with
            throwSendCnt := c.throwSendCnt + 1 }) ∨
       (n < 0 ∧ out.deleted = [a] ∧
          out.conn = { Conn.install b a body c with throwSendCnt := 0, psendMemAddr := none })) := by
  simp only [sendFirst, Option.map_eq_some_iff] at h
  obtain ⟨n, hn, rfl⟩ := h
  have hle : n ≤ payloadSize b body := sendUninterrupt_le hn
  refine ⟨n, hn, hle, ?_⟩
  by_cases hpos : n > 0
  · by_cases hfull : n = (Conn.install b a body c).restSendSize
    · rw [if_pos hpos, if_pos hfull]
      exact ⟨rfl, rfl, .inl ⟨hpos, hfull, rfl, rfl⟩⟩
    · have hlt : n < payloadSize b body := by
        have : n ≠ payloadSize b body := hfull
        omega
      rw [if_pos hpos, if_neg hfull]
      exact ⟨rfl, rfl, .inr (.inl ⟨hpos, hlt, rfl, rfl⟩)⟩
  · by_cases hz : n = 0
    · rw [if_neg hpos, if_pos hz]
      exact ⟨rfl, rfl, .inr (.inr (.inl ⟨hz, rfl, rfl⟩))⟩
    · by_cases hm : n = -1
      · rw [if_neg hpos, if_neg hz, if_pos hm]
        exact ⟨rfl, rfl, .inr (.inr (.inr (.inl ⟨by omega, rfl, rfl⟩)))⟩
      · rw [if_neg hpos, if_neg hz, if_neg hm]
        exact ⟨rfl, rfl, .inr (.inr (.inr (.inr ⟨by omega, rfl, rfl⟩)))⟩

/-- A write handler that does not complete the message leaves the buffer where it was. -/
theorem sendMsgHandler_keeps {c : Conn} {rs : List SendRet} {out : SendOut}
    (h : sendMsgHandler c rs = some out) (hbusy : out.conn.throwSendCnt ≠ 0) :
    out.conn.psendMemAddr = c.psendMemAddr ∧
      (c.restSendSize = 0 → out.conn.restSendSize = 0) := by
  obtain ⟨n, -, ⟨-, -, rfl⟩ | ⟨hpos, hlt, rfl⟩ | ⟨-, rfl⟩ | ⟨-, rfl⟩⟩ := sendMsgHandler_cases h
  · exact absurd rfl hbusy
  · exact ⟨rfl, fun h0 => by omega⟩
  · exact ⟨rfl, id⟩
  · exact absurd rfl hbusy

/-- One call of the write handler sends from the start of the buffer. -/
theorem sendMsgHandler_call {c : Conn} {rs : List SendRet} {out : SendOut}
    (h : sendMsgHandler c rs = some out) :
    out.call.from? = c.psendMemAddr.map (⟨·, 0⟩) ∧ (c.restSendSize = 0 → out.call.ret ≤ 0) := by
  obtain ⟨n, hle, ⟨-, -, rfl⟩ | ⟨-, -, rfl⟩ | ⟨-, rfl⟩ | ⟨-, rfl⟩⟩ := sendMsgHandler_cases h
    <;> exact ⟨rfl, fun h0 => by simp only [sendMsgHandlerDone]; omega⟩

/-- So does every call of a run of them. -/
theorem resume_calls {rss : List (List SendRet)} : ∀ {c : Conn} {calls : List SendCall},
    resume c rss = some calls → ∀ call ∈ calls,
      call.from? = c.psendMemAddr.map (⟨·, 0⟩) ∧ (c.restSendSize = 0 → call.ret ≤ 0) := by
  induction rss with
  | nil => intro c calls h; simp [resume] at h
  | cons rs rss ih =>
    intro c calls h call hc
    simp only [resume, Option.bind_eq_some_iff] at h
    obtain ⟨out, hout, h⟩ := h
    have hcall := sendMsgHandler_call hout
    by_cases hdone : out.conn.throwSendCnt = 0
    · rw [if_pos hdone] at h
      split at h
      · simp only [Option.some.injEq] at h
        subst h
        obtain rfl := List.mem_singleton.mp hc
        exact hcall
      · simp at h
    · rw [if_neg hdone] at h
      simp only [Option.map_eq_some_iff] at h
      obtain ⟨calls', hrest, rfl⟩ := h
      obtain ⟨hmem, hzero⟩ := sendMsgHandler_keeps hout hdone
      rcases List.mem_cons.mp hc with rfl | hc
      · exact hcall
      · obtain ⟨h1, h2⟩ := ih hrest call hc
        exact ⟨hmem ▸ h1, fun h0 => h2 (hzero h0)⟩

/-- The calls of a transmission: the first sends from behind the message header, the others from
the start of the buffer, and there are none after a first attempt that takes everything. -/
theorem transmit_calls {b : Build} {a : Addr} {body : Bytes} {c : Conn} {first : List SendRet}
    {later : List (List SendRet)} {calls : List SendCall}
    (h : transmit b a body c first later = some calls) :
    ∃ (n : Int) (rest : List SendCall),
      sendUninterrupt (payloadSize b body) first = some n ∧ n ≤ payloadSize b body ∧
      calls = ⟨some ⟨a, msgHdrSize b⟩, n⟩ :: rest ∧
      (∀ call ∈ rest, call.from? = some ⟨a, 0⟩ ∧ (payloadSize b body = 0 → call.ret ≤ 0)) ∧
      (0 < n → n = payloadSize b body → rest = []) := by
  simp only [transmit, Option.bind_eq_some_iff] at h
  obtain ⟨out, hout, h⟩ := h
  obtain ⟨n, hn, hle, hcall, -, hcases⟩ := sendFirst_cases hout
  by_cases hdone : out.conn.throwSendCnt = 0
  · rw [if_pos hdone] at h
    split at h
    · simp only [Option.some.injEq] at h
      exact ⟨n, [], hn, hle, by rw [← h, hcall], by simp, fun _ _ => rfl⟩
    · simp at h
  · rw [if_neg hdone] at h
    simp only [Option.map_eq_some_iff] at h
    obtain ⟨rest, hrest, rfl⟩ := h
    have hbusy : out.conn.psendMemAddr = some a ∧
        (payloadSize b body = 0 → out.conn.restSendSize = 0) ∧
        ¬ (0 < n ∧ n = payloadSize b body) := by
      rcases hcases with ⟨-, -, -, hc⟩ | ⟨hpos, hlt, -, hc⟩ | ⟨-, -, hc⟩ | ⟨hneg, -, hc⟩ | ⟨-, -, hc⟩
      · exact absurd (by rw [hc]) hdone
      · exact ⟨by rw [hc]; rfl, fun h0 => by omega, fun h => by omega⟩
      · exact absurd (by rw [hc]) hdone
      · exact ⟨by rw [hc]; rfl, fun h0 => by rw [hc]; exact h0, fun h => by omega⟩
      · exact absurd (by rw [hc]) hdone
    obtain ⟨hmem, hzero, hnot⟩ := hbusy
    refine ⟨n, rest, hn, hle, by rw [hcall], fun call hc => ?_, fun h1 h2 => absurd ⟨h1, h2⟩ hnot⟩
    obtain ⟨h1, h2⟩ := resume_calls hrest call hc
    exact ⟨by rw [h1, hmem]; rfl, fun h0 => h2 (hzero h0)⟩

/-- A call that returned nothing positive put nothing on the wire. -/
theorem SendCall.wire_nil {b : Build} (m : SendBuf b) {call : SendCall} (h : call.ret ≤ 0) :
    call.wire m = [] := by
  unfold SendCall.wire
  have : call.ret.toNat = 0 := by omega
  cases call.from? with
  | none => rfl
  | some p => simp only [this, List.take_zero]

/-- **When a message reaches the wire intact.** Of a message that has been completed, exactly the
payload was sent, and nothing of the message header, if and only if the payload is empty or the
first `send` that is not interrupted took all of it. -/
theorem wire_exact_iff {b : Build} (m : SendBuf b) (a : Addr) (c : Conn) (first : List SendRet)
    (later : List (List SendRet)) (calls : List SendCall)
    (h : transmit b a m.body c first later = some calls) :
    WireExact m calls ↔
      m.payload = [] ∨ firstAnswer first = some (.sent m.payload.length) := by
  obtain ⟨n, rest, hn, hle, rfl, hrest, hfull⟩ := transmit_calls h
  have hsize := m.payloadSize_le
  have hhdr : 0 < msgHdrSize b := by cases b <;> decide
  constructor
  · rintro ⟨hwire, hoff⟩
    by_cases hp : m.payload = []
    · exact .inl hp
    · -- a later call with something to send would send the message header
      have hnil : ∀ call ∈ rest, SendCall.wire m call = [] := by
        intro call hc
        apply SendCall.wire_nil
        by_cases hpos : 0 < call.ret
        · have := hoff call (List.mem_cons_of_mem _ hc) _ (hrest call hc).1 hpos
          simp only at this
          omega
        · omega
      rw [List.flatMap_cons, List.flatMap_eq_nil_iff.mpr hnil, List.append_nil] at hwire
      have hlen := congrArg List.length hwire
      simp only [SendCall.wire, List.length_take] at hlen
      have hpos : 0 < m.payload.length := List.length_pos_iff.mpr hp
      have hn' : n = (m.payload.length : Nat) := by omega
      exact .inr ((sendUninterrupt_eq_iff hn).mp hn')
  · intro hcase
    by_cases hp : m.payload = []
    · -- nothing to send, so nothing is sent
      have h0 : payloadSize b m.body = 0 := by rw [hp] at hsize; simpa using hsize
      have hret : ∀ call ∈ ⟨some ⟨a, msgHdrSize b⟩, n⟩ :: rest, call.ret ≤ 0 := by
        intro call hc
        rcases List.mem_cons.mp hc with rfl | hc
        · simp only; omega
        · exact (hrest call hc).2 h0
      refine ⟨?_, fun call hc p _ hpos => absurd (hret call hc) (by omega)⟩
      rw [hp, List.flatMap_eq_nil_iff]
      exact fun call hc => SendCall.wire_nil m (hret call hc)
    · have hn' := (sendUninterrupt_eq_iff hn).mpr (hcase.resolve_left hp)
      have hpos : 0 < m.payload.length := List.length_pos_iff.mpr hp
      obtain rfl := hfull (by omega) (by omega)
      subst hn'
      refine ⟨?_, fun call hc p hf hpos => ?_⟩
      · simp only [List.flatMap_cons, List.flatMap_nil, List.append_nil, SendCall.wire,
          Int.toNat_natCast]
        exact m.payload_eq.symm
      · obtain rfl := List.mem_singleton.mp hc
        simp only [Option.some.injEq] at hf
        rw [← hf]

/-- A PING reply queued for connection 5. -/
def pingReply : SendBuf .tcp where
  hdr := ⟨5, 1⟩
  hdrTail := []
  body := [8, 0, 0, 0, 0, 0, 0, 0]
  hdr_size := rfl
  whole := by decide

theorem wire_exact_full :
    WireExact pingReply [⟨some ⟨0, 16⟩, 8⟩] :=
  (wire_exact_iff pingReply 0 Conn.new [.fail .eintr, .sent 8] [] _ (by decide)).mpr
    (.inr rfl)

/-- The kernel takes 3 of the 8 bytes; the write handler then sends the 5 others, from the start of
the buffer. What arrives is not the reply, and its last bytes are the address of the connection. -/
theorem wire_not_exact :
    let calls : List SendCall := [⟨some ⟨0, 16⟩, 3⟩, ⟨some ⟨0, 0⟩, 5⟩]
    transmit .tcp 0 pingReply.body Conn.new [.sent 3] [[.sent 5]] = some calls ∧
      calls.flatMap (SendCall.wire pingReply) = [8, 0, 0, 5, 0, 0, 0, 0] ∧
      pingReply.payload = [8, 0, 0, 0, 0, 0, 0, 0] ∧ ¬ WireExact pingReply calls := by
  intro calls
  refine ⟨by decide, by decide, by decide, fun h => ?_⟩
  have := h.2 ⟨some ⟨0, 0⟩, 5⟩ (by simp [calls]) ⟨0, 0⟩ rfl (by decide)
  simp [msgHdrSize] at this

end Mgx
