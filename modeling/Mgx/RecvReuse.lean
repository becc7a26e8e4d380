import Mgx.ConnPool

/-
  The receive state of a connection, over all its occupancies.

  A connection is in use from the `get_conn` that hands it out to the next
  `insert_recy_conn_queue`, `close_conn` or `free_conn` of it. The operations come
  in any order and on any connections, the ones the callers should not make
  included: a connection freed twice, one recycled while it is in use, one handed
  out while it is in use.

  Correspondence (C++ ↔ Lean):
    a call of a pool operation                ↔ `RecvOp`, `RecvSys.step`
    `read_request_handler` and its `recv`     ↔ `RecvOp.read`
    `[precv_buf, precv_buf + rest_recv_size)` ↔ `HdrWindow`, `BodyWindow`

  What is proved: `recv_state_across_reuse`.
-/
namespace Mgx
open Runs

/-- The operations on a connection; `recycle` is the branch of `recy_conn_th_func`. -/
inductive RecvOp where
  | getConn (sockFd now : Int)
  | read (c : ConnId) (ret : RecvRet) (now : Int)
  | insertRecyConnQueue (c : ConnId) (now : Int)
  | closeConn (c : ConnId)
  | freeConn (c : ConnId)
  | recycle (c : ConnId) (now : Int)

/-- The pool, and which connections are in use. -/
structure RecvSys where
  pool : Pool
  inUse : ConnId → Bool

/-- The pool is now `p`, and `c` is in use or not. -/
def RecvSys.put (s : RecvSys) (p : Pool) (c : ConnId) (b : Bool) : RecvSys where
  pool := p
  inUse := Function.update s.inUse c b

/-- The release that the read handler asks for. -/
def RecvSys.release (s : RecvSys) (c : ConnId) (now : Int) : Option Release → RecvSys
  | none => s
  | some .delayed => s.put (s.pool.insertRecy c now) c false
  | some .immediate => s.put (s.pool.freeConn c) c false

/-- The read handler of `c`. -/
def RecvSys.read (s : RecvSys) (c : ConnId) (ret : RecvRet) (now : Int) : Option RecvSys :=
  (readRequestHandler c (s.pool.conn c) ret).map fun out =>
    { s with pool := s.pool.setConn c out.conn }.release c now out.release

/-- One operation, on a connection of the pool. `recv` stores at most `rest_recv_size` bytes. -/
def RecvSys.step (s : RecvSys) : RecvOp → Option RecvSys
  | .getConn sockFd now => (s.pool.getConn sockFd now).map fun (c, p) => s.put p c true
  | .read c ret now =>
    if c ∈ s.pool.pconnsQueue ∧ ret.stored.length ≤ (s.pool.conn c).restRecvSize then
      s.read c ret now
    else none
  | .insertRecyConnQueue c now =>
    if c ∈ s.pool.pconnsQueue then some (s.put (s.pool.insertRecy c now) c false) else none
  | .closeConn c =>
    if c ∈ s.pool.pconnsQueue then some (s.put (s.pool.freeConn c) c false) else none
  | .freeConn c =>
    if c ∈ s.pool.pconnsQueue then some (s.put (s.pool.freeConn c) c false) else none
  | .recycle c now =>
    if c ∈ s.pool.recySet ∧ s.pool.recyDue c now then some (s.put (s.pool.recyConn c) c false)
    else none

def RecvSys.start (wait : Int) (nows : List Int) : RecvSys :=
  ⟨connPoolInit wait nows, fun _ => false⟩

/-- The two body states. -/
def RecvStat.inBody : RecvStat → Bool
  | .pkgHdrStart | .pkgHdrReceiving => false
  | .pkgBodyStart | .pkgBodyReceiving => true

/-- The window starts inside `hdr_buf` and ends at its byte `m_pkg_hdr_size`. -/
def HdrWindow (x : Conn) : Prop :=
  ∃ off, x.precvBuf = .hdrBuf off ∧ off < pkgHdrBufSize ∧ off + x.restRecvSize = pkgHdrSize

/-- The window starts behind the message header and the package header of the allocation, and ends
where it ends, at `m_msg_hdr_size + pkg_size`. -/
def BodyWindow (x : Conn) : Prop :=
  ∃ m off, x.precvMemAddr = some m ∧ m.pkg.length = pkgSize x.hdrBuf.bytes ∧
    x.precvBuf = .mem off ∧ msgHdrSize .tcp + pkgHdrSize ≤ off ∧
    off + x.restRecvSize = msgHdrSize .tcp + pkgSize x.hdrBuf.bytes

/-! ## What the receive invariant says about the window -/

theorem HdrAt.window {x : Conn} {k : Nat} (h : HdrAt x k) : HdrWindow x := by
  have hrest := h.rest
  refine ⟨k, h.buf, ?_, hrest⟩
  unfold pkgHdrSize at hrest
  unfold pkgHdrBufSize
  omega

theorem HdrAt.inBody {x : Conn} {k : Nat} (h : HdrAt x k) : x.recvStat.inBody = false := by
  rw [h.stat]
  split <;> rfl

theorem BodyAt.window {x : Conn} {m : RecvMem} {k : Nat} (h : BodyAt x m k) (hsized : Sized x) :
    BodyWindow x := by
  have hlen := hsized m h.mem
  have hrest := h.rest
  have hstart := h.start
  exact ⟨m, _, h.mem, hlen, h.buf, by omega, by omega⟩

theorem BodyAt.inBody {x : Conn} {m : RecvMem} {k : Nat} (h : BodyAt x m k) :
    x.recvStat.inBody = true := by
  rw [h.stat]
  split <;> rfl

/-- There is room, and the room is an `unsigned int`. -/
theorem RecvInv.rest {x : Conn} (h : RecvInv x) : 1 ≤ x.restRecvSize ∧ x.restRecvSize < 2 ^ 32 := by
  rcases h with ⟨k, h⟩ | ⟨m, k, h⟩
  · have hrest := h.rest
    unfold pkgHdrSize at hrest
    exact ⟨h.room, by omega⟩
  · have hrest := h.rest
    have hsize := h.size
    unfold pkgMaxSize at hsize
    exact ⟨h.room, by omega⟩

theorem RecvInv.mem_iff {x : Conn} (h : RecvInv x) :
    x.precvMemAddr.isSome = true ↔ x.recvStat.inBody = true := by
  rcases h with ⟨k, h⟩ | ⟨m, k, h⟩
  · rw [h.mem, h.inBody]
    exact Iff.rfl
  · rw [h.mem, h.inBody]
    exact Iff.rfl

/-- Any outcome of `recv`: the handler is defined, and keeps the receive invariant. -/
theorem readRequestHandler_window (self : ConnId) {x : Conn} (hinv : RecvInv x)
    (hsized : Sized x) {ret : RecvRet} (hfit : ret.stored.length ≤ x.restRecvSize) :
    ∃ out, readRequestHandler self x ret = some out ∧ RecvInv out.conn ∧ Sized out.conn := by
  cases ret with
  | fail e => exact ⟨_, readRequestHandler_fail self x e, hinv, hsized⟩
  | got bs =>
    rcases Nat.eq_zero_or_pos bs.length with hzero | hpos
    · obtain rfl := List.length_eq_zero_iff.mp hzero
      exact ⟨_, rfl, hinv, hsized⟩
    · obtain ⟨out, hout, hinv', -, hsized'⟩ := readRequestHandler_spec self hinv hpos hfit
      exact ⟨out, hout, hinv', hsized' hsized⟩

/-! ## The invariant -/

/-- Every connection in use is in a good receive state. -/
def RecvSys.Inv (s : RecvSys) : Prop :=
  ∀ c, s.inUse c = true → RecvInv (s.pool.conn c) ∧ Sized (s.pool.conn c)

/-- An operation that touches `c` only. -/
theorem RecvSys.Inv.put {s : RecvSys} (h : s.Inv) {p : Pool} {c : ConnId} {b : Bool}
    (hother : ∀ d, d ≠ c → p.conn d = s.pool.conn d)
    (hself : b = true → RecvInv (p.conn c) ∧ Sized (p.conn c)) : (s.put p c b).Inv := by
  intro d hd
  have hd : Function.update s.inUse c b d = true := hd
  show RecvInv (p.conn d) ∧ Sized (p.conn d)
  by_cases hdc : d = c
  · subst hdc
    rw [Function.update_self] at hd
    exact hself hd
  · rw [Function.update_of_ne hdc] at hd
    rw [hother d hdc]
    exact h d hd

/-- A new occupant finds the receive side in its initial state, whatever the last one left. -/
theorem Pool.getConn_fresh {p p' : Pool} {sockFd now : Int} {c : ConnId}
    (h : p.getConn sockFd now = some (c, p')) : (p'.conn c).Fresh := by
  obtain ⟨-, rest, -, rfl⟩ | ⟨-, -, rfl⟩ := Pool.getConn_cases h
  · show ((p.setConn c _).conn c).Fresh
    rw [Pool.setConn_self]
    exact ⟨rfl, rfl, rfl, rfl⟩
  · show ((p.setConn c _).conn c).Fresh
    rw [Pool.setConn_self]
    exact ⟨rfl, rfl, rfl, rfl⟩

theorem Pool.insertRecy_other (p : Pool) {c d : ConnId} (h : d ≠ c) (now : Int) :
    (p.insertRecy c now).conn d = p.conn d := by
  unfold Pool.insertRecy
  split
  · rfl
  · exact Pool.setConn_other _ _ _ h

theorem Conn.Fresh.recvInv {x : Conn} (h : x.Fresh) : RecvInv x ∧ Sized x :=
  ⟨.inl ⟨0, h.hdrAt⟩, sized_of_none h.precvMemAddr⟩

/-- A release of `c` concerns no other connection. -/
theorem RecvSys.Inv.release {s : RecvSys} (h : s.Inv) (c : ConnId) (now : Int)
    (r : Option Release) : (s.release c now r).Inv := by
  cases r with
  | none => exact h
  | some r =>
    cases r with
    | delayed => exact h.put (fun d hd => Pool.insertRecy_other _ hd now) Bool.noConfusion
    | immediate => exact h.put (fun d hd => Pool.freeConn_other _ hd) Bool.noConfusion

/-- The read handler keeps the invariant, for a connection in use and for any other. -/
theorem RecvSys.read_inv {s s' : RecvSys} (h : s.Inv) {c : ConnId} {ret : RecvRet} {now : Int}
    (hfit : ret.stored.length ≤ (s.pool.conn c).restRecvSize)
    (hs : s.read c ret now = some s') : s'.Inv := by
  obtain ⟨out, hout, rfl⟩ := Option.map_eq_some_iff.mp hs
  apply RecvSys.Inv.release
  intro d hd
  show RecvInv ((s.pool.setConn c out.conn).conn d) ∧ Sized ((s.pool.setConn c out.conn).conn d)
  by_cases hdc : d = c
  · subst hdc
    obtain ⟨hinv, hsized⟩ := h d hd
    obtain ⟨out', hout', hgood⟩ := readRequestHandler_window d hinv hsized hfit
    obtain rfl : out = out' := Option.some.inj (hout.symm.trans hout')
    rw [Pool.setConn_self]
    exact hgood
  · rw [Pool.setConn_other _ _ _ hdc]
    exact h d hd

/-- Every operation keeps the invariant. -/
theorem RecvSys.step_inv (s : RecvSys) (op : RecvOp) (s' : RecvSys) (h : s.Inv)
    (hs : s.step op = some s') : s'.Inv := by
  cases op with
  | getConn sockFd now =>
    simp only [step, Option.map_eq_some_iff, Prod.exists] at hs
    obtain ⟨c, p, hget, rfl⟩ := hs
    exact h.put (fun d hd => Pool.getConn_other hget hd) fun _ => (Pool.getConn_fresh hget).recvInv
  | read c ret now =>
    simp only [step, Option.ite_none_right_eq_some] at hs
    exact read_inv h hs.1.2 hs.2
  | insertRecyConnQueue c now =>
    simp only [step, Option.ite_none_right_eq_some, Option.some.injEq] at hs
    obtain ⟨-, rfl⟩ := hs
    exact h.put (fun d hd => Pool.insertRecy_other _ hd now) Bool.noConfusion
  | closeConn c =>
    simp only [step, Option.ite_none_right_eq_some, Option.some.injEq] at hs
    obtain ⟨-, rfl⟩ := hs
    exact h.put (fun d hd => Pool.freeConn_other _ hd) Bool.noConfusion
  | freeConn c =>
    simp only [step, Option.ite_none_right_eq_some, Option.some.injEq] at hs
    obtain ⟨-, rfl⟩ := hs
    exact h.put (fun d hd => Pool.freeConn_other _ hd) Bool.noConfusion
  | recycle c now =>
    simp only [step, Option.ite_none_right_eq_some, Option.some.injEq] at hs
    obtain ⟨-, rfl⟩ := hs
    exact h.put (fun d hd => Pool.freeConn_other _ hd) Bool.noConfusion

/-- **The receive state across reuse.** After any operations in any order, for every connection in
use: there is room for at least one byte, so that `recv` returns 0 only at a shutdown, and no
subtraction of a received size wraps; the window lies in `hdr_buf` in the header states and in the
allocation in the body states, as `HdrWindow` and `BodyWindow` say; `precv_mem_addr` is non-null
exactly in the body states; and whatever `recv` answers, the handler stores inside the window. What
`get_conn` hands out is in the initial state. -/
theorem recv_state_across_reuse (wait : Int) (nows : List Int) (ops : List RecvOp) (s : RecvSys)
    (hrun : run RecvSys.step (RecvSys.start wait nows) ops = some s) :
    (∀ c x, s.inUse c = true → x = s.pool.conn c →
      1 ≤ x.restRecvSize ∧
      (∀ n ≤ x.restRecvSize, subU32 x.restRecvSize n = x.restRecvSize - n) ∧
      (x.recvStat.inBody = false → HdrWindow x) ∧
      (x.recvStat.inBody = true → BodyWindow x) ∧
      (x.precvMemAddr.isSome = true ↔ x.recvStat.inBody = true) ∧
      ∀ ret : RecvRet, ret.stored.length ≤ x.restRecvSize →
        ∃ out, readRequestHandler c x ret = some out) ∧
    ∀ sockFd now c p, s.pool.getConn sockFd now = some (c, p) → (p.conn c).Fresh := by
  have hinv : s.Inv := run_invariant_all RecvSys.step_inv (fun _ => Bool.noConfusion) hrun
  refine ⟨?_, fun _ _ _ _ hget => Pool.getConn_fresh hget⟩
  rintro c _ huse rfl
  obtain ⟨hrecv, hsized⟩ := hinv c huse
  obtain ⟨hroom, hlt⟩ := hrecv.rest
  refine ⟨hroom, fun n hn => subU32_of_le hn hlt, ?_, ?_, hrecv.mem_iff, ?_⟩
  · intro hstat
    rcases hrecv with ⟨k, h⟩ | ⟨m, k, h⟩
    · exact h.window
    · rw [h.inBody] at hstat
      cases hstat
  · intro hstat
    rcases hrecv with ⟨k, h⟩ | ⟨m, k, h⟩
    · rw [h.inBody] at hstat
      cases hstat
    · exact h.window hsized
  · intro ret hfit
    obtain ⟨out, hout, -⟩ := readRequestHandler_window c hrecv hsized hfit
    exact ⟨out, hout⟩

/-- A client that shuts down in the middle of a body of 4 bytes, and the next occupant of its
connection. -/
def reuseHistory : List RecvOp :=
  [.getConn 5 0, .read 0 (.got [12, 0, 1, 0]) 1, .read 0 (.got [0, 0, 0, 0]) 2,
    .read 0 (.got [7, 7]) 3, .read 0 (.got []) 4, .recycle 0 84, .getConn 6 90,
    .read 0 (.got [10, 0, 1, 0, 0, 0, 0, 0]) 91]

theorem recv_state_across_reuse_partial :
    ∃ s, run RecvSys.step (RecvSys.start 80 [0]) reuseHistory = some s ∧
      s.inUse 0 = true ∧ BodyWindow (s.pool.conn 0) ∧ 1 ≤ (s.pool.conn 0).restRecvSize := by
  obtain ⟨s, hrun, huse, hbody⟩ : ∃ s,
      run RecvSys.step (RecvSys.start 80 [0]) reuseHistory = some s ∧ s.inUse 0 = true ∧
        (s.pool.conn 0).recvStat.inBody = true := ⟨_, rfl, rfl, rfl⟩
  obtain ⟨hroom, -, -, hwindow, -⟩ :=
    (recv_state_across_reuse 80 [0] reuseHistory s hrun).1 0 _ huse rfl
  exact ⟨s, hrun, huse, hwindow hbody, hroom⟩

end Mgx
