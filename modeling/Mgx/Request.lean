import Mgx.Comm

/-
  The receive path in TCP mode.

  One call of the read handler makes one `recv` into the window
  `[precv_buf, precv_buf + rest_recv_size)` and then moves the receive state. A
  completed package is handed to the thread pool. `none` is undefined behaviour:
  a store outside the buffer `precv_buf` points into, or a null buffer handed on.

  Correspondence (C++ ↔ Lean), `net/mgx_socket_request.cpp`:
    result of `recv` (bytes stored, or `errno`)   ↔ `RecvRet`
    `recv_process`                                ↔ `recvProcess` and `recvInto`
    `_read_request_handler`                       ↔ `readRequestHandler`
    `read_request_handler_process_v1`, `_v2`      ↔ `readRequestHandlerProcessV1`, `..V2`
    `insert_msg_to_queue_and_signal(buf)`         ↔ the buffers in `ReadOut.msgs`
    `insert_recy_conn_queue(c)`, `close_conn(c)`  ↔ `ReadOut.release`
-/
namespace Mgx
open CMem

/-- What `recv` did: stored these bytes and returned their number, or failed. -/
inductive RecvRet where
  | got (bs : Bytes)
  | fail (e : Errno)
  deriving DecidableEq, Repr

/-- The two ways of giving a connection up: `insert_recy_conn_queue` and `close_conn`. -/
inductive Release where
  | delayed
  | immediate
  deriving DecidableEq, Repr

/-- `recv_process` after its `recv`: its return value, and the release it makes. -/
def recvProcess : RecvRet → Int × Option Release
  | .got bs => if bs.length = 0 then (-1, some .delayed) else (bs.length, none)
  | .fail .eagain => (-1, none)
  | .fail .eintr => (-1, none)
  | .fail .econnreset => (-1, some .immediate)
  | .fail .other => (-1, some .immediate)

/-- The bytes `recv` stores. -/
def RecvRet.stored : RecvRet → Bytes
  | .got bs => bs
  | .fail _ => []

/-- `recv` storing through `precv_buf`. -/
def recvInto (c : Conn) (bs : Bytes) : Option Conn :=
  match c.precvBuf with
  | .hdrBuf off => (c.hdrBuf.write off bs).map c.withHdrBuf
  | .mem off => (c.precvMemAddr.bind (·.write off bs)).map c.withRecvMem

/-- What one call of the read handler did. -/
structure ReadOut where
  conn : Conn
  msgs : List RecvMem
  release : Option Release

/-- `read_request_handler_process_v2`: hand the package to the thread pool and start over. -/
def readRequestHandlerProcessV2 (c : Conn) : Option ReadOut :=
  match c.precvMemAddr with
  | none => none
  | some m => some
      { conn := { c with
          precvMemAddr := none
          recvStat := .pkgHdrStart
          precvBuf := .hdrBuf 0
          restRecvSize := pkgHdrSize }
        msgs := [m]
        release := none }

/-- The allocation `read_request_handler_process_v1` makes for a package of size `n`: the message
header filled in, the package header copied from `hdr_buf`, the rest uninitialized. -/
def newRecvMem (self : ConnId) (c : Conn) (n : Nat) : RecvMem where
  hdr := { pconn := self, curSeq := c.curSeq }
  pkg := (c.hdrBuf.bytes.take pkgHdrSize).map some ++ List.replicate (n - pkgHdrSize) none

/-- `read_request_handler_process_v1`: a complete package header is in `hdr_buf`. -/
def readRequestHandlerProcessV1 (self : ConnId) (c : Conn) : Option ReadOut :=
  let n := pkgSize c.hdrBuf.bytes
  if n < pkgHdrSize ∨ n > pkgMaxSize - 1000 then some
      { conn := { c with
          recvStat := .pkgHdrStart
          precvBuf := .hdrBuf 0
          restRecvSize := pkgHdrSize }
        msgs := []
        release := none }
  else
    let c := c.withRecvMem (newRecvMem self c n)
    if n = pkgHdrSize then readRequestHandlerProcessV2 c
    else some
      { conn := { c with
          recvStat := .pkgBodyStart
          precvBuf := .mem (msgHdrSize .tcp + pkgHdrSize)
          restRecvSize := n - pkgHdrSize }
        msgs := []
        release := none }

/-- `precv_buf += recv_size; rest_recv_size -= recv_size` with the next receiving status. -/
def shortRead (c : Conn) (stat : RecvStat) (n : Nat) : ReadOut where
  conn := { c with
    recvStat := stat
    precvBuf := c.precvBuf.add n
    restRecvSize := subU32 c.restRecvSize n }
  msgs := []
  release := none

/-- The `switch` of `_read_request_handler`, after `recv_process` returned `n > 0`. -/
def recvSwitch (self : ConnId) (c : Conn) (n : Nat) : Option ReadOut :=
  match c.recvStat with
  | .pkgHdrStart =>
    if n = pkgHdrSize then readRequestHandlerProcessV1 self c
    else some (shortRead c .pkgHdrReceiving n)
  | .pkgHdrReceiving =>
    if n = c.restRecvSize then readRequestHandlerProcessV1 self c
    else some (shortRead c .pkgHdrReceiving n)
  | .pkgBodyStart =>
    if n = c.restRecvSize then readRequestHandlerProcessV2 c
    else some (shortRead c .pkgBodyReceiving n)
  | .pkgBodyReceiving =>
    if n = c.restRecvSize then readRequestHandlerProcessV2 c
    else some (shortRead c .pkgBodyReceiving n)

/-- `Mgx_socket::_read_request_handler`. -/
def readRequestHandler (self : ConnId) (c : Conn) (r : RecvRet) : Option ReadOut :=
  let recvSize := (recvProcess r).1
  if recvSize ≤ 0 then some { conn := c, msgs := [], release := (recvProcess r).2 }
  else (recvInto c r.stored).bind (fun c => recvSwitch self c recvSize.toNat)

/-! ## The receive state -/

/-- In the middle of a package header, `k` bytes of it received. -/
structure HdrAt (c : Conn) (k : Nat) : Prop where
  stat : c.recvStat = if k = 0 then .pkgHdrStart else .pkgHdrReceiving
  buf : c.precvBuf = .hdrBuf k
  rest : k + c.restRecvSize = pkgHdrSize
  room : 0 < c.restRecvSize
  mem : c.precvMemAddr = none

/-- In the middle of a package body, `k` bytes of the package `m` received, its header included. -/
structure BodyAt (c : Conn) (m : RecvMem) (k : Nat) : Prop where
  stat : c.recvStat = if k = pkgHdrSize then .pkgBodyStart else .pkgBodyReceiving
  buf : c.precvBuf = .mem (msgHdrSize .tcp + k)
  rest : k + c.restRecvSize = m.pkg.length
  room : 0 < c.restRecvSize
  start : pkgHdrSize ≤ k
  mem : c.precvMemAddr = some m
  size : m.pkg.length ≤ pkgMaxSize - 1000

/-- The receive invariant: the window starts inside the header or the body of the package being
received and ends exactly at its end. -/
def RecvInv (c : Conn) : Prop := (∃ k, HdrAt c k) ∨ ∃ m k, BodyAt c m k

/-- The allocation is as long as the header in `hdr_buf` says. -/
def Sized (c : Conn) : Prop :=
  ∀ m, c.precvMemAddr = some m → m.pkg.length = pkgSize c.hdrBuf.bytes

theorem sized_of_none {c : Conn} (h : c.precvMemAddr = none) : Sized c := by
  intro m hm
  rw [h] at hm
  cases hm

theorem Conn.Fresh.hdrAt {c : Conn} (h : c.Fresh) : HdrAt c 0 where
  stat := by simp [h.recvStat]
  buf := h.precvBuf
  rest := by rw [h.restRecvSize]; rfl
  room := by rw [h.restRecvSize]; decide
  mem := h.precvMemAddr

/-- A failed `recv` leaves the connection as it is. -/
theorem readRequestHandler_fail (self : ConnId) (c : Conn) (e : Errno) :
    readRequestHandler self c (.fail e) =
      some { conn := c, msgs := [], release := (recvProcess (.fail e)).2 } := by
  cases e <;> rfl

theorem readRequestHandler_got (self : ConnId) (c : Conn) {x : Bytes} (hx : 0 < x.length) :
    readRequestHandler self c (.got x) =
      (recvInto c x).bind (fun c => recvSwitch self c x.length) := by
  have hne : ¬ x.length = 0 := by omega
  have hpos : ¬ (x.length : Int) ≤ 0 := by omega
  simp only [readRequestHandler, recvProcess, hne, if_false, hpos, RecvRet.stored, Int.toNat_natCast]

/-- The window of a header state lies inside `hdr_buf`. -/
theorem HdrAt.write {c : Conn} {k : Nat} (h : HdrAt c k) {x : Bytes}
    (hf : x.length ≤ c.restRecvSize) : ∃ b, c.hdrBuf.write k x = some b ∧
      b.bytes = overwrite c.hdrBuf.bytes k x := by
  have hle : k + x.length ≤ c.hdrBuf.bytes.length := by
    have := h.rest
    rw [c.hdrBuf.size]; unfold pkgHdrSize at this; unfold pkgHdrBufSize; omega
  refine ⟨⟨overwrite c.hdrBuf.bytes k x, (length_overwrite hle).trans c.hdrBuf.size⟩, ?_, rfl⟩
  simp only [HdrBuf.write, hle, dif_pos]

/-- The window of a body state lies inside the allocation, after the message header. -/
theorem BodyAt.write {c : Conn} {m : RecvMem} {k : Nat} (h : BodyAt c m k) {x : Bytes}
    (hf : x.length ≤ c.restRecvSize) :
    m.write (msgHdrSize .tcp + k) x = some { m with pkg := overwrite m.pkg k (x.map some) } := by
  have := h.rest
  unfold RecvMem.write
  rw [if_pos ⟨by omega, by omega⟩, show msgHdrSize .tcp + k - msgHdrSize .tcp = k by omega]

/-- A read in a header state: the header is completed, or more of it is there. -/
theorem HdrAt.read {c : Conn} {k : Nat} (h : HdrAt c k) (self : ConnId) {x : Bytes} {b : HdrBuf}
    (hx : 0 < x.length) (hb : c.hdrBuf.write k x = some b) :
    readRequestHandler self c (.got x) =
      if x.length = c.restRecvSize then readRequestHandlerProcessV1 self (c.withHdrBuf b)
      else some (shortRead (c.withHdrBuf b) .pkgHdrReceiving x.length) := by
  rw [readRequestHandler_got self c hx]
  simp only [recvInto, h.buf, hb, Option.map_some, Option.bind_some, recvSwitch,
    Conn.withHdrBuf_recvStat, Conn.withHdrBuf_restRecvSize, h.stat]
  by_cases hk : k = 0
  · have hrest : c.restRecvSize = pkgHdrSize := by have := h.rest; omega
    simp only [hk, if_true, hrest]
  · simp only [hk, if_false]
    rfl

/-- A read in a body state: the package is completed, or more of it is there. -/
theorem BodyAt.read {c : Conn} {m : RecvMem} {k : Nat} (h : BodyAt c m k) (self : ConnId)
    {x : Bytes} (hx : 0 < x.length) (hf : x.length ≤ c.restRecvSize) :
    readRequestHandler self c (.got x) =
      let c' := c.withRecvMem { m with pkg := overwrite m.pkg k (x.map some) }
      if x.length = c.restRecvSize then readRequestHandlerProcessV2 c'
      else some (shortRead c' .pkgBodyReceiving x.length) := by
  rw [readRequestHandler_got self c hx]
  simp only [recvInto, h.buf, h.mem, Option.bind_some, h.write hf, Option.map_some, recvSwitch,
    Conn.withRecvMem_recvStat, Conn.withRecvMem_restRecvSize, h.stat]
  by_cases hk : k = pkgHdrSize
  · simp only [hk, if_true]
  · simp only [hk, if_false]
    rfl

/-- After a short read in a header state. -/
theorem HdrAt.short {c : Conn} {k : Nat} (h : HdrAt c k) {b : HdrBuf} {n : Nat} (hn : 0 < n)
    (hlt : n < c.restRecvSize) :
    HdrAt (shortRead (c.withHdrBuf b) .pkgHdrReceiving n).conn (k + n) := by
  have hrest := h.rest
  have hroom : c.restRecvSize < 2 ^ 32 := by unfold pkgHdrSize at hrest; omega
  have hsub := subU32_of_le (Nat.le_of_lt hlt) hroom
  refine ⟨?_, ?_, ?_, ?_, h.mem⟩
  · rw [if_neg (by omega)]; rfl
  · simp only [shortRead, Conn.withHdrBuf_precvBuf, h.buf, RecvPtr.add]
  · simp only [shortRead, Conn.withHdrBuf_restRecvSize, hsub]; omega
  · simp only [shortRead, Conn.withHdrBuf_restRecvSize, hsub]; omega

/-- After a short read in a body state. -/
theorem BodyAt.short {c : Conn} {m : RecvMem} {k : Nat} (h : BodyAt c m k) {x : Bytes}
    (hx : 0 < x.length) (hlt : x.length < c.restRecvSize) :
    let m' := { m with pkg := overwrite m.pkg k (x.map some) }
    BodyAt (shortRead (c.withRecvMem m') .pkgBodyReceiving x.length).conn m'
      (k + x.length) := by
  intro m'
  have hrest := h.rest
  have hsize := h.size
  have hlen : m'.pkg.length = m.pkg.length := length_overwrite (by rw [List.length_map]; omega)
  have hroom : c.restRecvSize < 2 ^ 32 := by unfold pkgMaxSize at hsize; omega
  have hsub := subU32_of_le (Nat.le_of_lt hlt) hroom
  have hstart := h.start
  refine ⟨?_, ?_, ?_, ?_, by omega, rfl, by rw [hlen]; exact hsize⟩
  · rw [if_neg (by omega)]; rfl
  · simp only [shortRead, Conn.withRecvMem_precvBuf, h.buf, RecvPtr.add, Nat.add_assoc]
  · simp only [shortRead, Conn.withRecvMem_restRecvSize, hsub, hlen]; omega
  · simp only [shortRead, Conn.withRecvMem_restRecvSize, hsub]; omega

/-- The receive side back in its initial state, `hdr_buf` as it is. -/
def resetRecv (c : Conn) : Conn :=
  { c with
    recvStat := .pkgHdrStart
    precvBuf := .hdrBuf 0
    restRecvSize := pkgHdrSize
    precvMemAddr := none }

theorem resetRecv_fresh (c : Conn) : (resetRecv c).Fresh := ⟨rfl, rfl, rfl, rfl⟩

theorem readRequestHandlerProcessV2_some {c : Conn} {m : RecvMem} (h : c.precvMemAddr = some m) :
    readRequestHandlerProcessV2 c = some { conn := resetRecv c, msgs := [m], release := none } := by
  simp only [readRequestHandlerProcessV2, h, resetRecv]

theorem v1_reject (self : ConnId) {c : Conn} (hm : c.precvMemAddr = none)
    (h : pkgSize c.hdrBuf.bytes < pkgHdrSize ∨ pkgSize c.hdrBuf.bytes > pkgMaxSize - 1000) :
    readRequestHandlerProcessV1 self c =
      some { conn := resetRecv c, msgs := [], release := none } := by
  simp only [readRequestHandlerProcessV1, h, if_true, resetRecv, hm]

theorem v1_header_only (self : ConnId) {c : Conn} (h : pkgSize c.hdrBuf.bytes = pkgHdrSize) :
    readRequestHandlerProcessV1 self c = some
      { conn := resetRecv c, msgs := [newRecvMem self c pkgHdrSize], release := none } := by
  have hok : ¬ (pkgHdrSize < pkgHdrSize ∨ pkgHdrSize > pkgMaxSize - 1000) := by decide
  simp only [readRequestHandlerProcessV1, h, hok, if_false, if_true]
  rfl

/-- The connection as `read_request_handler_process_v1` leaves it when a body is to come. -/
def startBody (self : ConnId) (c : Conn) (n : Nat) : Conn :=
  { c with
    precvMemAddr := some (newRecvMem self c n)
    recvStat := .pkgBodyStart
    precvBuf := .mem (msgHdrSize .tcp + pkgHdrSize)
    restRecvSize := n - pkgHdrSize }

theorem v1_body (self : ConnId) {c : Conn} (hlo : pkgHdrSize < pkgSize c.hdrBuf.bytes)
    (hhi : pkgSize c.hdrBuf.bytes ≤ pkgMaxSize - 1000) :
    readRequestHandlerProcessV1 self c = some
      { conn := startBody self c (pkgSize c.hdrBuf.bytes), msgs := [], release := none } := by
  have hok : ¬ (pkgSize c.hdrBuf.bytes < pkgHdrSize ∨
      pkgSize c.hdrBuf.bytes > pkgMaxSize - 1000) := by omega
  have hne : ¬ pkgSize c.hdrBuf.bytes = pkgHdrSize := by omega
  simp only [readRequestHandlerProcessV1, hok, if_false, hne, startBody, Conn.withRecvMem]

theorem length_newRecvMem (self : ConnId) (c : Conn) {n : Nat} (h : pkgHdrSize ≤ n) :
    (newRecvMem self c n).pkg.length = n := by
  have := c.hdrBuf.size
  unfold pkgHdrBufSize at this
  unfold pkgHdrSize at h
  simp only [newRecvMem, List.length_append, List.length_map, List.length_take,
    List.length_replicate, pkgHdrSize]
  omega

theorem startBody_bodyAt {self : ConnId} {c : Conn} {n : Nat} (hlo : pkgHdrSize < n)
    (hhi : n ≤ pkgMaxSize - 1000) : BodyAt (startBody self c n) (newRecvMem self c n) pkgHdrSize where
  stat := by rw [if_pos rfl]; rfl
  buf := rfl
  rest := by
    rw [length_newRecvMem self c (Nat.le_of_lt hlo)]
    simp only [startBody]; omega
  room := by simp only [startBody]; omega
  start := Nat.le_refl _
  mem := rfl
  size := by rw [length_newRecvMem self c (Nat.le_of_lt hlo)]; exact hhi

/-- A complete package header leads to a state of the receive invariant. -/
theorem v1_spec (self : ConnId) {c : Conn} (hm : c.precvMemAddr = none) :
    ∃ out, readRequestHandlerProcessV1 self c = some out ∧ RecvInv out.conn ∧
      out.release = none ∧ Sized out.conn := by
  by_cases hbad : pkgSize c.hdrBuf.bytes < pkgHdrSize ∨ pkgSize c.hdrBuf.bytes > pkgMaxSize - 1000
  · exact ⟨_, v1_reject self hm hbad, .inl ⟨0, (resetRecv_fresh c).hdrAt⟩, rfl,
      sized_of_none rfl⟩
  · by_cases heq : pkgSize c.hdrBuf.bytes = pkgHdrSize
    · exact ⟨_, v1_header_only self heq, .inl ⟨0, (resetRecv_fresh c).hdrAt⟩, rfl,
        sized_of_none rfl⟩
    · refine ⟨_, v1_body self (by omega) (by omega),
        .inr ⟨_, _, startBody_bodyAt (by omega) (by omega)⟩, rfl, ?_⟩
      rintro _ ⟨⟩
      exact length_newRecvMem self c (by omega)

/-- **One read keeps the receive invariant**, whatever part of the window it fills, and neither
stores out of bounds nor releases the connection. -/
theorem readRequestHandler_spec (self : ConnId) {c : Conn} (h : RecvInv c) {x : Bytes}
    (hx : 0 < x.length) (hf : x.length ≤ c.restRecvSize) :
    ∃ out, readRequestHandler self c (.got x) = some out ∧ RecvInv out.conn ∧
      out.release = none ∧ (Sized c → Sized out.conn) := by
  rcases h with ⟨k, h⟩ | ⟨m, k, h⟩
  · obtain ⟨b, hb, -⟩ := h.write hf
    rw [h.read self hx hb]
    by_cases hfull : x.length = c.restRecvSize
    · rw [if_pos hfull]
      obtain ⟨out, hout, hinv, hrelease, hsized⟩ := v1_spec self (c := c.withHdrBuf b) h.mem
      exact ⟨out, hout, hinv, hrelease, fun _ => hsized⟩
    · rw [if_neg hfull]
      have hshort := h.short (b := b) hx (by omega)
      exact ⟨_, rfl, .inl ⟨_, hshort⟩, rfl, fun _ => sized_of_none hshort.mem⟩
  · rw [h.read self hx hf]
    by_cases hfull : x.length = c.restRecvSize
    · simp only [hfull, if_true]
      rw [readRequestHandlerProcessV2_some rfl]
      exact ⟨_, rfl, .inl ⟨0, (resetRecv_fresh _).hdrAt⟩, rfl, fun _ => sized_of_none rfl⟩
    · simp only [hfull, if_false]
      refine ⟨_, rfl, .inr ⟨_, _, h.short hx (by omega)⟩, rfl, ?_⟩
      rintro hsized _ ⟨⟩
      have hrest := h.rest
      exact (length_overwrite (by rw [List.length_map]; omega)).trans (hsized m h.mem)

end Mgx
