import Mgx.Lib.CMem

/-
  The data the server is built on: the package header, the message header, and
  the connection object `mgx_conn_t` with the two operations that start and end
  an occupancy of it.

  Correspondence (C++ ↔ Lean), `include/mgx_comm.h` and `include/mgx_socket.h`:
    `PKG_HDR_START` .. `PKG_BODY_RECEIVING`  ↔ `RecvStat`
    `mgx_pkg_hdr_t::pkg_size`                ↔ `pkgSize` (first two bytes, little endian)
    `mgx_msg_hdr_t`                          ↔ `MsgHdr`
    `char hdr_buf[PKG_HDR_BUF_SIZE]`         ↔ `HdrBuf`
    `precv_buf`                              ↔ `RecvPtr` (which buffer, which offset)
    `precv_mem_addr` and what it points to   ↔ `Option RecvMem`
    `psend_buf`, `psend_mem_addr`            ↔ `Option SendPtr`, `Option Addr`
    `new mgx_conn_t()`                       ↔ `Conn.new`
    `get_one_to_use`, `put_one_to_free`      ↔ `Conn.getOneToUse`, `Conn.putOneToFree`

  `m_cur_seq` is kept without its wrap: the `uint64_t` the code holds is
  `curSeq % 2^64`, and `seqEq` is the comparison the code makes. Bytes that
  `new char[]` leaves uninitialized are `none`. The mutex, the peer address, the
  listening socket and the two handler objects are not modelled; `sql` is only
  whether the database handle is non-null.

  The counters of the pool, the send queue and the timer queue are `int`s or
  `std::atomic<int>`s, and a semaphore counts up to SEM_VALUE_MAX, where `sem_post`
  fails with EOVERFLOW. In all modules they are numbers without a bound: a run with
  2^31 connections, messages or timer entries at one time is not modelled. Only
  `Mgx.TimerCache` keeps the wrap of `m_timer_que_size`.
-/
namespace Mgx
open CMem

abbrev Bytes := List UInt8

/-- The address of a connection object: its position in the order of allocation. -/
abbrev ConnId := Nat

/-- The address of a message buffer. -/
abbrev Addr := Nat

/-- `PKG_MAX_SIZE`: header and body. -/
def pkgMaxSize : Nat := 30000

/-- `PKG_HDR_BUF_SIZE`. -/
def pkgHdrBufSize : Nat := 20

/-- `m_pkg_hdr_size = sizeof(mgx_pkg_hdr_t)`, packed: 2 + 2 + 4. -/
def pkgHdrSize : Nat := 8

/-- Which of the two servers is compiled: `USE_HTTP` or not. -/
inductive Build where
  | tcp
  | http
  deriving DecidableEq, Repr

/-- `m_msg_hdr_size = sizeof(mgx_msg_hdr_t)`: a pointer and a `uint64_t`, and under `USE_HTTP` the
method (padded to 8) and the URI pointer. -/
def msgHdrSize : Build → Nat
  | .tcp => 16
  | .http => 32

/-- `rest_recv_size -= n` on an `unsigned int`. -/
def subU32 (a b : Nat) : Nat := (a + 2 ^ 32 - b) % 2 ^ 32

theorem subU32_of_le {a b : Nat} (h : b ≤ a) (ha : a < 2 ^ 32) : subU32 a b = a - b := by
  unfold subU32; omega

/-- Receiving status of a connection. -/
inductive RecvStat where
  | pkgHdrStart
  | pkgHdrReceiving
  | pkgBodyStart
  | pkgBodyReceiving
  deriving DecidableEq, Repr

/-- The `pkg_size` field of the package header at the start of `b`. -/
def pkgSize (b : Bytes) : Nat := (b.getD 0 0).toNat + 256 * (b.getD 1 0).toNat

/-- The two bytes of `pkg_size` decide it. -/
theorem pkgSize_take {b : Bytes} {n : Nat} (h : 2 ≤ n) : pkgSize (b.take n) = pkgSize b := by
  simp only [pkgSize, List.getD_eq_getElem?_getD, List.getElem?_take]
  rw [if_pos (by omega), if_pos (by omega)]

theorem pkgSize_append {a b : Bytes} (h : 2 ≤ a.length) : pkgSize (a ++ b) = pkgSize a := by
  simp only [pkgSize, List.getD_eq_getElem?_getD]
  rw [List.getElem?_append_left (by omega), List.getElem?_append_left (by omega)]

/-- `mgx_msg_hdr_t`: the connection a message belongs to and its `m_cur_seq` when the header was
filled in. -/
structure MsgHdr where
  pconn : ConnId
  curSeq : Nat
  deriving DecidableEq, Repr

/-- The comparison of two `uint64_t` sequence numbers. -/
def seqEq (a b : Nat) : Bool := a % 2 ^ 64 == b % 2 ^ 64

theorem seqEq_self (a : Nat) : seqEq a a = true := by simp [seqEq]

/-- Below the wrap the comparison is equality. -/
theorem seqEq_iff {a b : Nat} (ha : a < 2 ^ 64) (hb : b < 2 ^ 64) : seqEq a b = true ↔ a = b := by
  rw [seqEq, beq_iff_eq, Nat.mod_eq_of_lt ha, Nat.mod_eq_of_lt hb]

/-! ## Receive buffers -/

/-- `char hdr_buf[PKG_HDR_BUF_SIZE]`. -/
structure HdrBuf where
  bytes : Bytes
  size : bytes.length = pkgHdrBufSize

/-- Store `x` at offset `off`; `none` past the end of the array. -/
def HdrBuf.write (b : HdrBuf) (off : Nat) (x : Bytes) : Option HdrBuf :=
  if h : off + x.length ≤ b.bytes.length then
    some ⟨overwrite b.bytes off x, (length_overwrite h).trans b.size⟩
  else none

def HdrBuf.zero : HdrBuf := ⟨List.replicate pkgHdrBufSize 0, by simp⟩

/-- The allocation `precv_mem_addr` points to: a message header, then the package. -/
structure RecvMem where
  hdr : MsgHdr
  pkg : List (Option UInt8)
  deriving DecidableEq, Repr

/-- Store `x` at offset `off` of the allocation. The receive path has no business in the message
header, so a store there counts as undefined, as one past the end does. -/
def RecvMem.write (m : RecvMem) (off : Nat) (x : Bytes) : Option RecvMem :=
  if msgHdrSize .tcp ≤ off ∧ off - msgHdrSize .tcp + x.length ≤ m.pkg.length then
    some { m with pkg := overwrite m.pkg (off - msgHdrSize .tcp) (x.map some) }
  else none

/-- Where `precv_buf` points: into `hdr_buf` or into the allocation `precv_mem_addr`. -/
inductive RecvPtr where
  | hdrBuf (off : Nat)
  | mem (off : Nat)
  deriving DecidableEq, Repr

/-- `precv_buf += n`. -/
def RecvPtr.add : RecvPtr → Nat → RecvPtr
  | .hdrBuf off, n => .hdrBuf (off + n)
  | .mem off, n => .mem (off + n)

/-- Where `psend_buf` points: a message buffer and an offset in it. -/
structure SendPtr where
  addr : Addr
  off : Nat
  deriving DecidableEq, Repr

/-- The flags of `events` that the server sets. -/
structure EpollEvents where
  epollin : Bool
  epollrdhup : Bool
  epollout : Bool
  deriving DecidableEq, Repr

/-- The values of `errno` that `recv_process` and `send_uninterrupt` tell apart (`EAGAIN` is
`EWOULDBLOCK`). -/
inductive Errno where
  | eagain
  | eintr
  | econnreset
  | other
  deriving DecidableEq, Repr

/-! ## The connection object -/

/-- `mgx_conn_t`. -/
structure Conn where
  fd : Int
  instanceBit : Bool
  curSeq : Nat
  events : EpollEvents
  sql : Bool
  recvStat : RecvStat
  hdrBuf : HdrBuf
  precvBuf : RecvPtr
  restRecvSize : Nat
  precvMemAddr : Option RecvMem
  psendBuf : Option SendPtr
  restSendSize : Nat
  psendMemAddr : Option Addr
  throwSendCnt : Int
  inRecyTime : Int
  lastPingTime : Int

/-- `new mgx_conn_t()`: value-initialized. -/
def Conn.new : Conn where
  fd := 0
  instanceBit := false
  curSeq := 0
  events := ⟨false, false, false⟩
  sql := false
  recvStat := .pkgHdrStart
  hdrBuf := .zero
  precvBuf := .hdrBuf 0
  restRecvSize := 0
  precvMemAddr := none
  psendBuf := none
  restSendSize := 0
  psendMemAddr := none
  throwSendCnt := 0
  inRecyTime := 0
  lastPingTime := 0

/-- The connection with other bytes in `hdr_buf`. -/
def Conn.withHdrBuf (c : Conn) (b : HdrBuf) : Conn := { c with hdrBuf := b }

/-- The connection with other contents behind `precv_mem_addr`. -/
def Conn.withRecvMem (c : Conn) (m : RecvMem) : Conn := { c with precvMemAddr := some m }

section
variable (c : Conn) (b : HdrBuf) (m : RecvMem)

@[simp] theorem Conn.withHdrBuf_recvStat : (c.withHdrBuf b).recvStat = c.recvStat := rfl
@[simp] theorem Conn.withHdrBuf_restRecvSize : (c.withHdrBuf b).restRecvSize = c.restRecvSize := rfl
@[simp] theorem Conn.withHdrBuf_hdrBuf : (c.withHdrBuf b).hdrBuf = b := rfl
@[simp] theorem Conn.withHdrBuf_precvBuf : (c.withHdrBuf b).precvBuf = c.precvBuf := rfl
@[simp] theorem Conn.withRecvMem_precvBuf : (c.withRecvMem m).precvBuf = c.precvBuf := rfl
@[simp] theorem Conn.withRecvMem_recvStat : (c.withRecvMem m).recvStat = c.recvStat := rfl
@[simp] theorem Conn.withRecvMem_restRecvSize :
    (c.withRecvMem m).restRecvSize = c.restRecvSize := rfl

end

/-- `mgx_conn_t::get_one_to_use`; `now` is what `time(nullptr)` returns. -/
def Conn.getOneToUse (c : Conn) (now : Int) : Conn :=
  { c with
    curSeq := c.curSeq + 1
    recvStat := .pkgHdrStart
    precvBuf := .hdrBuf 0
    restRecvSize := pkgHdrSize
    precvMemAddr := none
    psendMemAddr := none
    throwSendCnt := 0
    lastPingTime := now }

/-- `mgx_conn_t::put_one_to_free`. -/
def Conn.putOneToFree (c : Conn) : Conn :=
  { c with
    curSeq := c.curSeq + 1
    fd := -1
    precvMemAddr := none
    psendMemAddr := none }

/-- The message buffers `put_one_to_free` passes to `delete[]`. -/
def Conn.putOneToFreeDeletes (c : Conn) : List Addr := c.psendMemAddr.toList

/-- The receive side as `get_one_to_use` leaves it; `hdr_buf` keeps what the last occupant left. -/
structure Conn.Fresh (c : Conn) : Prop where
  recvStat : c.recvStat = .pkgHdrStart
  precvBuf : c.precvBuf = .hdrBuf 0
  restRecvSize : c.restRecvSize = pkgHdrSize
  precvMemAddr : c.precvMemAddr = none

theorem Conn.getOneToUse_fresh (c : Conn) (now : Int) : (c.getOneToUse now).Fresh :=
  ⟨rfl, rfl, rfl, rfl⟩

end Mgx
