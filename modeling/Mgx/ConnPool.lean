import Mgx.Lib.KeyTable
import Mgx.Lib.Runs
import Mgx.Request

/-
  The connection pool.

  `Pool` is the three containers and their counters, with the operations that
  move a connection between them. `Server` adds the descriptors that are open,
  each with the pointer and the instance bit it was registered with, so that a
  connection is in use exactly when a descriptor is open for it. The heartbeat is
  off here and every operation is one step; `Mgx.Events` takes them apart.

  Correspondence (C++ ↔ Lean), `net/mgx_socket_conn.cpp`:
    `conn_pool_init`                              ↔ `connPoolInit`, `Pool.initOne`
    `get_conn`                                    ↔ `Pool.getConn`
    `free_conn`                                   ↔ `Pool.freeConn`
    `insert_recy_conn_queue`, from the lock on    ↔ `Pool.insertRecy`
    the branch of `recy_conn_th_func`             ↔ `Pool.recyDue`, `Pool.recyConn`
    `close(c->fd)`                                ↔ `closeFd`
    `insert_recy_conn_queue`, `close_conn`        ↔ `Server.insertRecyConnQueue`, `..closeConn`
    `event_accept` (net/mgx_socket_accept.cpp)    ↔ `Server.accept`
    the body of the loop of `epoll_process_events`,
      with `recv_process` for the read handler    ↔ `Server.readEvent`

  `m_recy_conn_set` is an `unordered_set`: here a list without duplicates, whose
  order says nothing. The counters are those of `Mgx.Comm`, without a bound. What a
  read that gets bytes does to the receive buffers is in `Mgx.Request` and left out.

  What is proved: `conn_pool_partition`. Whatever the order of the steps, every
  connection is in exactly one place, `get_conn` hands out none that is in use or
  in the recycle set, and the counters are the sizes.
-/
namespace Mgx
open Runs

/-- The containers and counters of the pool, the connection objects they point to, and the
configured waiting time. -/
structure Pool where
  conn : ConnId → Conn
  pconnsQueue : List ConnId
  freeQueue : List ConnId
  recySet : List ConnId
  totalConnsCnt : Int
  freeConnsCnt : Int
  totalRecyConnsCnt : Int
  recyConnWaitTime : Int

/-- Before `conn_pool_init`; nothing is at any address yet. -/
def Pool.empty (wait : Int) : Pool where
  conn := fun _ => Conn.new
  pconnsQueue := []
  freeQueue := []
  recySet := []
  totalConnsCnt := 0
  freeConnsCnt := 0
  totalRecyConnsCnt := 0
  recyConnWaitTime := wait

/-- Store `x` in the object `c`. -/
def Pool.setConn (p : Pool) (c : ConnId) (x : Conn) : Pool :=
  { p with conn := Function.update p.conn c x }

section
variable (p : Pool) (c : ConnId) (x : Conn)

@[simp] theorem Pool.setConn_self : (p.setConn c x).conn c = x := Function.update_self ..
@[simp] theorem Pool.setConn_pconnsQueue : (p.setConn c x).pconnsQueue = p.pconnsQueue := rfl
@[simp] theorem Pool.setConn_freeQueue : (p.setConn c x).freeQueue = p.freeQueue := rfl
@[simp] theorem Pool.setConn_recySet : (p.setConn c x).recySet = p.recySet := rfl
@[simp] theorem Pool.setConn_totalConnsCnt : (p.setConn c x).totalConnsCnt = p.totalConnsCnt := rfl
@[simp] theorem Pool.setConn_freeConnsCnt : (p.setConn c x).freeConnsCnt = p.freeConnsCnt := rfl
@[simp] theorem Pool.setConn_totalRecyConnsCnt :
    (p.setConn c x).totalRecyConnsCnt = p.totalRecyConnsCnt := rfl

theorem Pool.setConn_other {d : ConnId} (h : d ≠ c) : (p.setConn c x).conn d = p.conn d :=
  Function.update_of_ne h ..

end

/-- One turn of the loop of `conn_pool_init`. -/
def Pool.initOne (p : Pool) (now : Int) : Pool :=
  let c := p.pconnsQueue.length
  { p.setConn c ({ Conn.new with sql := true }.getOneToUse now) with
    pconnsQueue := p.pconnsQueue ++ [c]
    freeQueue := p.freeQueue ++ [c] }

/-- `conn_pool_init`, one entry of `nows` for each of the `m_worker_conns` connections: what
`time(nullptr)` returns in its `get_one_to_use`. -/
def connPoolInit (wait : Int) (nows : List Int) : Pool :=
  { nows.foldl Pool.initOne (Pool.empty wait) with
    freeConnsCnt := nows.length
    totalConnsCnt := nows.length }

/-- `get_one_to_use`, then `fd = sock_fd`. -/
def Conn.occupy (c : Conn) (sockFd now : Int) : Conn := { c.getOneToUse now with fd := sockFd }

/-- `instance = !instance`. -/
def Conn.flipInstance (c : Conn) : Conn := { c with instanceBit := !c.instanceBit }

/-- `get_conn`; `none` when `front` is called on an empty queue. -/
def Pool.getConn (p : Pool) (sockFd now : Int) : Option (ConnId × Pool) :=
  if p.freeConnsCnt > 0 then
    match p.freeQueue with
    | [] => none
    | c :: rest => some (c,
        { p.setConn c ((p.conn c).occupy sockFd now).flipInstance with
          freeQueue := rest
          freeConnsCnt := p.freeConnsCnt - 1 })
  else
    let c := p.pconnsQueue.length
    some (c,
      { p.setConn c (Conn.new.occupy sockFd now) with
        pconnsQueue := p.pconnsQueue ++ [c]
        totalConnsCnt := p.totalConnsCnt + 1 })

/-- `free_conn`. -/
def Pool.freeConn (p : Pool) (c : ConnId) : Pool :=
  { p.setConn c (p.conn c).putOneToFree with
    freeQueue := p.freeQueue ++ [c]
    freeConnsCnt := p.freeConnsCnt + 1 }

/-- `in_recy_time = time(nullptr); m_cur_seq++`. -/
def Conn.retire (c : Conn) (now : Int) : Conn :=
  { c with inRecyTime := now, curSeq := c.curSeq + 1 }

/-- The part of `insert_recy_conn_queue` under `m_recy_queue_mutex`. -/
def Pool.insertRecy (p : Pool) (c : ConnId) (now : Int) : Pool :=
  if c ∈ p.recySet then p
  else
    { p.setConn c ((p.conn c).retire now) with
      recySet := c :: p.recySet
      totalRecyConnsCnt := p.totalRecyConnsCnt + 1 }

/-- The test `recy_conn_th_func` makes on an element of the recycle set. -/
def Pool.recyDue (p : Pool) (c : ConnId) (now : Int) : Prop :=
  now ≥ (p.conn c).inRecyTime + p.recyConnWaitTime

instance (p : Pool) (c : ConnId) (now : Int) : Decidable (p.recyDue c now) :=
  inferInstanceAs (Decidable (_ ≥ _))

/-- What `recy_conn_th_func` does with an element that is due. -/
def Pool.recyConn (p : Pool) (c : ConnId) : Pool :=
  { p with
    recySet := p.recySet.erase c
    totalRecyConnsCnt := p.totalRecyConnsCnt - 1 }.freeConn c

/-! ## Open descriptors -/

/-- An open descriptor and the `ev.data.ptr` it is registered with: the connection and its instance
bit. -/
structure Reg where
  fd : Int
  conn : ConnId
  inst : Bool
  deriving DecidableEq, Repr

/-- `close(fd)`: the descriptor and its registration are gone. When it is not open (`EBADF`) the
callers only log. -/
def closeFd (fds : List Reg) (fd : Int) : List Reg := KeyTable.remove Reg.fd fd fds

/-- The pool and the open descriptors. -/
structure Server where
  pool : Pool
  fds : List Reg

/-- A descriptor is open for the connection. -/
def Server.InUse (s : Server) (c : ConnId) : Prop := c ∈ s.fds.map Reg.conn

/-- `insert_recy_conn_queue`. -/
def Server.insertRecyConnQueue (s : Server) (c : ConnId) (now : Int) : Server where
  pool := s.pool.insertRecy c now
  fds := closeFd s.fds (s.pool.conn c).fd

/-- `close_conn`. -/
def Server.closeConn (s : Server) (c : ConnId) : Server where
  pool := s.pool.freeConn c
  fds := closeFd s.fds (s.pool.conn c).fd

/-- `event_accept` up to the registration. The kernel gives a number that is not open. -/
def Server.accept (s : Server) (fd now : Int) : Option (ConnId × Server) :=
  if 0 ≤ fd ∧ fd ∉ s.fds.map Reg.fd then
    (s.pool.getConn fd now).map fun (c, p) => (c, ⟨p, ⟨fd, c, (p.conn c).instanceBit⟩ :: s.fds⟩)
  else none

/-- The stale-event test of `epoll_process_events`. -/
def Pool.staleEvent (p : Pool) (c : ConnId) (inst : Bool) : Bool :=
  (p.conn c).fd == -1 || (p.conn c).instanceBit != inst

/-- A readable descriptor is processed, and its `recv` answers `ret`. -/
def Server.readEvent (s : Server) (r : Reg) (ret : RecvRet) (now : Int) : Server :=
  if s.pool.staleEvent r.conn r.inst then s
  else match (recvProcess ret).2 with
    | none => s
    | some .delayed => s.insertRecyConnQueue r.conn now
    | some .immediate => s.closeConn r.conn

/-- What can happen: a client is accepted; a client is accepted and its registration fails; an open
descriptor is readable (`recv` returning 0 is the peer's shutdown, returning -1 a socket error); the
recycler frees a connection that is due. -/
inductive ServerAct where
  | accept (fd now : Int)
  | acceptFails (fd now : Int)
  | readable (r : Reg) (ret : RecvRet) (now : Int)
  | recycle (c : ConnId) (now : Int)

/-- One step; `none` when it cannot happen or its behaviour is undefined. -/
def Server.step (s : Server) : ServerAct → Option Server
  | .accept fd now => (s.accept fd now).map Prod.snd
  | .acceptFails fd now => (s.accept fd now).map (fun x => x.2.closeConn x.1)
  | .readable r ret now => if r ∈ s.fds then some (s.readEvent r ret now) else none
  | .recycle c now =>
    if c ∈ s.pool.recySet ∧ s.pool.recyDue c now then some { s with pool := s.pool.recyConn c }
    else none

/-- The state `epoll_init` starts from. -/
def Server.start (wait : Int) (nows : List Int) : Server := ⟨connPoolInit wait nows, []⟩

/-! ## What the operations do -/

/-- Everything `get_conn` can do. -/
theorem Pool.getConn_cases {p p' : Pool} {sockFd now : Int} {c : ConnId}
    (h : p.getConn sockFd now = some (c, p')) :
    (0 < p.freeConnsCnt ∧ ∃ rest, p.freeQueue = c :: rest ∧
      p' = { p.setConn c ((p.conn c).occupy sockFd now).flipInstance with
        freeQueue := rest
        freeConnsCnt := p.freeConnsCnt - 1 }) ∨
    (p.freeConnsCnt ≤ 0 ∧ c = p.pconnsQueue.length ∧
      p' = { p.setConn c (Conn.new.occupy sockFd now) with
        pconnsQueue := p.pconnsQueue ++ [c]
        totalConnsCnt := p.totalConnsCnt + 1 }) := by
  unfold Pool.getConn at h
  split at h
  · next hpos =>
    cases hq : p.freeQueue with
    | nil => rw [hq] at h; simp at h
    | cons d rest =>
      rw [hq] at h
      simp only [Option.some.injEq, Prod.mk.injEq] at h
      obtain ⟨rfl, rfl⟩ := h
      exact .inl ⟨hpos, rest, rfl, rfl⟩
  · next hpos =>
    simp only [Option.some.injEq, Prod.mk.injEq] at h
    obtain ⟨rfl, rfl⟩ := h
    exact .inr ⟨by omega, rfl, rfl⟩

/-- `get_conn` is defined while the counter does not exceed the queue. -/
theorem Pool.getConn_isSome {p : Pool} (h : p.freeConnsCnt = p.freeQueue.length)
    (sockFd now : Int) : ∃ c p', p.getConn sockFd now = some (c, p') := by
  unfold Pool.getConn
  split
  · cases hq : p.freeQueue with
    | nil => rw [hq] at h; simp only [List.length_nil] at h; omega
    | cons c rest => exact ⟨_, _, rfl⟩
  · exact ⟨_, _, rfl⟩

/-- The connection handed out has the descriptor. -/
theorem Pool.getConn_fd {p p' : Pool} {sockFd now : Int} {c : ConnId}
    (h : p.getConn sockFd now = some (c, p')) : (p'.conn c).fd = sockFd := by
  obtain ⟨-, rest, -, rfl⟩ | ⟨-, -, rfl⟩ := Pool.getConn_cases h
  · show ((p.setConn c _).conn c).fd = sockFd
    rw [Pool.setConn_self]; rfl
  · show ((p.setConn c _).conn c).fd = sockFd
    rw [Pool.setConn_self]; rfl

theorem Pool.getConn_other {p p' : Pool} {sockFd now : Int} {c d : ConnId}
    (h : p.getConn sockFd now = some (c, p')) (hd : d ≠ c) : p'.conn d = p.conn d := by
  obtain ⟨-, rest, -, rfl⟩ | ⟨-, -, rfl⟩ := Pool.getConn_cases h
  · exact Pool.setConn_other _ _ _ hd
  · exact Pool.setConn_other _ _ _ hd

theorem Pool.insertRecy_of_notMem {p : Pool} {c : ConnId} (h : c ∉ p.recySet) (now : Int) :
    p.insertRecy c now = { p.setConn c ((p.conn c).retire now) with
      recySet := c :: p.recySet
      totalRecyConnsCnt := p.totalRecyConnsCnt + 1 } := if_neg h

/-- `insert_recy_conn_queue` leaves the descriptor number in the object. -/
theorem Pool.insertRecy_fd (p : Pool) (c d : ConnId) (now : Int) :
    ((p.insertRecy c now).conn d).fd = (p.conn d).fd ∧
      ((p.insertRecy c now).conn d).instanceBit = (p.conn d).instanceBit := by
  unfold Pool.insertRecy
  split
  · exact ⟨rfl, rfl⟩
  · by_cases hd : d = c
    · subst hd
      show ((p.setConn d _).conn d).fd = _ ∧ ((p.setConn d _).conn d).instanceBit = _
      rw [Pool.setConn_self]
      exact ⟨rfl, rfl⟩
    · show ((p.setConn c _).conn d).fd = _ ∧ ((p.setConn c _).conn d).instanceBit = _
      rw [Pool.setConn_other _ _ _ hd]
      exact ⟨rfl, rfl⟩

theorem Pool.freeConn_other (p : Pool) {c d : ConnId} (h : d ≠ c) :
    (p.freeConn c).conn d = p.conn d := Pool.setConn_other _ _ _ h

/-! ## The invariant -/

/-- Every address allocated is in one place, the counters count, and an open descriptor is the one
its connection holds. -/
structure Server.Inv (s : Server) : Prop where
  queue : s.pool.pconnsQueue = List.range s.pool.pconnsQueue.length
  once : ∀ c, s.pool.freeQueue.count c + s.pool.recySet.count c + (s.fds.map Reg.conn).count c =
    s.pool.pconnsQueue.count c
  total : s.pool.totalConnsCnt = s.pool.pconnsQueue.length
  free : s.pool.freeConnsCnt = s.pool.freeQueue.length
  recy : s.pool.totalRecyConnsCnt = s.pool.recySet.length
  fds : (s.fds.map Reg.fd).Nodup
  own : ∀ r ∈ s.fds, (s.pool.conn r.conn).fd = r.fd

theorem Server.Inv.count_le {s : Server} (h : s.Inv) (c : ConnId) :
    s.pool.pconnsQueue.count c ≤ 1 := by
  rw [h.queue]
  exact List.nodup_iff_count_le_one.mp List.nodup_range c

/-- The address the next allocation returns is not in the pool. -/
theorem Server.Inv.fresh {s : Server} (h : s.Inv) :
    s.pool.pconnsQueue.count s.pool.pconnsQueue.length = 0 := by
  rw [List.count_eq_zero, h.queue]
  simp

/-- A descriptor that is open belongs to a connection that is neither free nor in the recycle set,
and to no other descriptor. -/
theorem Server.Inv.inUse {s : Server} (h : s.Inv) {c : ConnId} (hc : s.InUse c) :
    s.pool.freeQueue.count c = 0 ∧ s.pool.recySet.count c = 0 ∧
      (s.fds.map Reg.conn).count c = 1 := by
  have hpos : 0 < (s.fds.map Reg.conn).count c := List.count_pos_iff.mpr hc
  have hle := h.count_le c
  have honce := h.once c
  omega

/-- What `conn_pool_init` builds: the addresses from 0 on, all of them free. -/
theorem initOne_foldl (nows : List Int) : ∀ {p : Pool} {n : Nat},
    p.pconnsQueue = List.range n → p.freeQueue = List.range n →
    (nows.foldl Pool.initOne p).pconnsQueue = List.range (n + nows.length) ∧
    (nows.foldl Pool.initOne p).freeQueue = List.range (n + nows.length) ∧
    (nows.foldl Pool.initOne p).recySet = p.recySet ∧
    (nows.foldl Pool.initOne p).totalRecyConnsCnt = p.totalRecyConnsCnt := by
  induction nows with
  | nil => intro p n hq hf; exact ⟨hq, hf, rfl, rfl⟩
  | cons now nows ih =>
    intro p n hq hf
    have hlen : p.pconnsQueue.length = n := by rw [hq, List.length_range]
    have hq' : (p.initOne now).pconnsQueue = List.range (n + 1) := by
      show p.pconnsQueue ++ [p.pconnsQueue.length] = _
      rw [hlen, hq, List.range_succ]
    have hf' : (p.initOne now).freeQueue = List.range (n + 1) := by
      show p.freeQueue ++ [p.pconnsQueue.length] = _
      rw [hlen, hf, List.range_succ]
    obtain ⟨h1, h2, h3, h4⟩ := ih hq' hf'
    have hn : n + 1 + nows.length = n + (now :: nows).length := by
      rw [List.length_cons]; omega
    rw [hn] at h1 h2
    exact ⟨h1, h2, h3, h4⟩

theorem start_inv (wait : Int) (nows : List Int) : (Server.start wait nows).Inv := by
  obtain ⟨hq, hf, hr, hn⟩ := initOne_foldl nows (p := Pool.empty wait) (n := 0) rfl rfl
  rw [Nat.zero_add] at hq hf
  have hq' : (Server.start wait nows).pool.pconnsQueue = List.range nows.length := hq
  have hf' : (Server.start wait nows).pool.freeQueue = List.range nows.length := hf
  have hr' : (Server.start wait nows).pool.recySet = [] := hr
  constructor
  · rw [hq', List.length_range]
  · intro c
    rw [hq', hf', hr']
    show _ + 0 + 0 = _
    omega
  · rw [hq', List.length_range]; rfl
  · rw [hf', List.length_range]; rfl
  · rw [hr']; exact hn
  · exact List.nodup_nil
  · intro r hr; cases hr

/-- What `get_conn` hands out is neither in use nor in the recycle set: it was at the front of the
free queue, or nowhere. -/
theorem Server.Inv.getConn_unused {s : Server} (h : s.Inv) {sockFd now : Int} {c : ConnId}
    {p : Pool} (hget : s.pool.getConn sockFd now = some (c, p)) :
    ¬ s.InUse c ∧ c ∉ s.pool.recySet := by
  unfold Server.InUse
  simp only [← List.count_eq_zero]
  have hle := h.count_le c
  have honce := h.once c
  obtain ⟨-, rest, hq, -⟩ | ⟨-, hc, -⟩ := Pool.getConn_cases hget
  · rw [hq, List.count_cons_self] at honce
    omega
  · rw [hc, h.fresh] at honce
    rw [hc]
    omega

/-- What `event_accept` does. -/
theorem Server.accept_spec {s s' : Server} {fd now : Int} {c : ConnId}
    (hs : s.accept fd now = some (c, s')) : ∃ p, s.pool.getConn fd now = some (c, p) ∧
      (0 ≤ fd ∧ fd ∉ s.fds.map Reg.fd) ∧ s' = ⟨p, ⟨fd, c, (p.conn c).instanceBit⟩ :: s.fds⟩ := by
  obtain ⟨hfd, hs⟩ := Option.ite_none_right_eq_some.mp hs
  obtain ⟨⟨c', p⟩, hget, heq⟩ := Option.map_eq_some_iff.mp hs
  obtain ⟨rfl, rfl⟩ := Prod.mk.inj heq
  exact ⟨p, hget, hfd, rfl⟩

/-- Accepting keeps the invariant. -/
theorem accept_inv {s s' : Server} {fd now : Int} {c : ConnId} (h : s.Inv)
    (hs : s.accept fd now = some (c, s')) : s'.Inv ∧ s'.InUse c := by
  obtain ⟨p, hget, hfd, rfl⟩ := Server.accept_spec hs
  have hnot : ∀ r ∈ s.fds, r.conn ≠ c := by
    intro r hr he
    exact (h.getConn_unused hget).1 (he ▸ List.mem_map_of_mem hr)
  refine ⟨?_, List.mem_cons_self ..⟩
  have hown : ∀ r ∈ (⟨fd, c, (p.conn c).instanceBit⟩ :: s.fds : List Reg),
      (p.conn r.conn).fd = r.fd := by
    intro r hr
    rcases List.mem_cons.mp hr with rfl | hr
    · exact Pool.getConn_fd hget
    · rw [Pool.getConn_other hget (hnot r hr)]
      exact h.own r hr
  have hnodup : (((⟨fd, c, (p.conn c).instanceBit⟩ : Reg) :: s.fds).map Reg.fd).Nodup :=
    List.nodup_cons.mpr ⟨hfd.2, h.fds⟩
  obtain ⟨hpos, rest, hq, rfl⟩ | ⟨-, hc, rfl⟩ := Pool.getConn_cases hget
  · refine ⟨h.queue, ?_, h.total, ?_, h.recy, hnodup, hown⟩
    · intro d
      have honce := h.once d
      rw [hq] at honce
      simp only [List.map_cons, List.count_cons] at honce ⊢
      simp only [Pool.setConn_recySet, Pool.setConn_pconnsQueue]
      omega
    · have hfree := h.free
      rw [hq] at hfree
      simp only [List.length_cons] at hfree
      simp only
      omega
  · refine ⟨?_, ?_, ?_, h.free, h.recy, hnodup, hown⟩
    · simp only [List.length_append, List.length_singleton]
      rw [List.range_succ, ← h.queue, hc]
    · intro d
      have honce := h.once d
      simp only [List.map_cons, List.count_cons, List.count_append, List.count_nil]
      simp only [Pool.setConn_recySet, Pool.setConn_freeQueue]
      omega
    · simp only [List.length_append, List.length_singleton, h.total]
      omega

/-- Closing the descriptor of a connection in use takes its entry, and no other, off the table. -/
theorem Server.Inv.close {s : Server} (h : s.Inv) {c : ConnId} (hc : s.InUse c) :
    (∀ d, (s.fds.map Reg.conn).count d =
      ((closeFd s.fds (s.pool.conn c).fd).map Reg.conn).count d + [c].count d) ∧
    ((closeFd s.fds (s.pool.conn c).fd).map Reg.fd).Nodup ∧
    ∀ r ∈ closeFd s.fds (s.pool.conn c).fd, r ∈ s.fds ∧ r.conn ≠ c := by
  obtain ⟨r, hr, rfl⟩ := List.mem_map.mp hc
  rw [h.own r hr]
  exact KeyTable.remove_spec h.fds hr (Nat.le_of_eq (h.inUse hc).2.2)

/-- `close_conn` of a connection in use keeps the invariant. -/
theorem closeConn_inv {s : Server} (h : s.Inv) {c : ConnId} (hc : s.InUse c) :
    (s.closeConn c).Inv := by
  obtain ⟨hcount, hnodup, hrest⟩ := h.close hc
  refine ⟨h.queue, ?_, h.total, ?_, h.recy, hnodup, ?_⟩
  · intro d
    show (s.pool.freeQueue ++ [c]).count d + s.pool.recySet.count d +
      ((closeFd s.fds (s.pool.conn c).fd).map Reg.conn).count d = s.pool.pconnsQueue.count d
    have honce := h.once d
    rw [hcount d] at honce
    rw [List.count_append]
    omega
  · show s.pool.freeConnsCnt + 1 = (s.pool.freeQueue ++ [c]).length
    rw [List.length_append, List.length_singleton, h.free]
    omega
  · intro r hr
    show ((s.pool.freeConn c).conn r.conn).fd = r.fd
    rw [Pool.freeConn_other _ (hrest r hr).2]
    exact h.own r (hrest r hr).1

/-- So does `insert_recy_conn_queue`. -/
theorem insertRecyConnQueue_inv {s : Server} (h : s.Inv) {c : ConnId} (hc : s.InUse c)
    (now : Int) : (s.insertRecyConnQueue c now).Inv := by
  obtain ⟨hcount, hnodup, hrest⟩ := h.close hc
  have hnot : c ∉ s.pool.recySet := List.count_eq_zero.mp (h.inUse hc).2.1
  have hpool := Pool.insertRecy_of_notMem hnot now
  have hown : ∀ r ∈ closeFd s.fds (s.pool.conn c).fd,
      ((s.pool.insertRecy c now).conn r.conn).fd = r.fd := by
    intro r hr
    rw [(Pool.insertRecy_fd s.pool c r.conn now).1]
    exact h.own r (hrest r hr).1
  unfold Server.insertRecyConnQueue
  rw [hpool] at hown ⊢
  refine ⟨h.queue, ?_, h.total, h.free, ?_, hnodup, hown⟩
  · intro d
    show s.pool.freeQueue.count d + (c :: s.pool.recySet).count d +
      ((closeFd s.fds (s.pool.conn c).fd).map Reg.conn).count d = s.pool.pconnsQueue.count d
    have honce := h.once d
    rw [hcount d] at honce
    rw [List.count_cons] at honce ⊢
    rw [List.count_nil] at honce
    omega
  · show s.pool.totalRecyConnsCnt + 1 = (c :: s.pool.recySet).length
    rw [List.length_cons, h.recy]
    omega

/-- So does the recycler. -/
theorem recyConn_inv {s : Server} (h : s.Inv) {c : ConnId} (hc : c ∈ s.pool.recySet) :
    Server.Inv { s with pool := s.pool.recyConn c } := by
  have hpos : 0 < s.pool.recySet.count c := List.count_pos_iff.mpr hc
  have hlen : (s.pool.recySet.erase c).length + 1 = s.pool.recySet.length := by
    rw [List.length_erase_of_mem hc]
    have := List.length_pos_of_mem hc
    omega
  refine ⟨h.queue, ?_, h.total, ?_, ?_, h.fds, ?_⟩
  · intro d
    show (s.pool.freeQueue ++ [c]).count d + (s.pool.recySet.erase c).count d +
      (s.fds.map Reg.conn).count d = s.pool.pconnsQueue.count d
    have honce := h.once d
    rw [List.count_append, List.count_cons, List.count_nil, List.count_erase]
    by_cases hd : c = d
    · subst hd
      simp only [beq_self_eq_true, if_true]
      omega
    · simp only [beq_iff_eq, hd, if_false]
      omega
  · show s.pool.freeConnsCnt + 1 = (s.pool.freeQueue ++ [c]).length
    rw [List.length_append, List.length_singleton, h.free]
    omega
  · show s.pool.totalRecyConnsCnt - 1 = (s.pool.recySet.erase c).length
    rw [h.recy]
    omega
  · intro r hr
    have hne : r.conn ≠ c := by
      intro he
      have := (h.inUse (List.mem_map_of_mem hr)).2.1
      rw [he] at this
      omega
    show ((Pool.freeConn _ c).conn r.conn).fd = r.fd
    rw [Pool.freeConn_other _ hne]
    exact h.own r hr

/-- Every step keeps the invariant. -/
theorem Server.step_inv (s : Server) (a : ServerAct) (s' : Server) (h : s.Inv)
    (hs : s.step a = some s') : s'.Inv := by
  cases a with
  | accept fd now =>
    simp only [Server.step, Option.map_eq_some_iff] at hs
    obtain ⟨⟨c, s₁⟩, hacc, rfl⟩ := hs
    exact (accept_inv h hacc).1
  | acceptFails fd now =>
    simp only [Server.step, Option.map_eq_some_iff] at hs
    obtain ⟨⟨c, s₁⟩, hacc, rfl⟩ := hs
    obtain ⟨hinv, huse⟩ := accept_inv h hacc
    exact closeConn_inv hinv huse
  | readable r ret now =>
    simp only [Server.step] at hs
    split at hs
    case isFalse => simp at hs
    case isTrue hr =>
    have huse : s.InUse r.conn := List.mem_map_of_mem hr
    simp only [Option.some.injEq] at hs
    subst hs
    unfold Server.readEvent
    split
    · exact h
    · split
      · exact h
      · exact insertRecyConnQueue_inv h huse now
      · exact closeConn_inv h huse
  | recycle c now =>
    simp only [Server.step] at hs
    split at hs
    case isFalse => simp at hs
    case isTrue hc =>
    simp only [Option.some.injEq] at hs
    subst hs
    exact recyConn_inv h hc.1

/-- The connection is in exactly one of the free queue, the recycle set and use, and there once. -/
def Server.InOnePlace (s : Server) (c : ConnId) : Prop :=
  (s.pool.freeQueue.count c = 1 ∧ c ∉ s.pool.recySet ∧ ¬ s.InUse c) ∨
  (c ∉ s.pool.freeQueue ∧ s.pool.recySet.count c = 1 ∧ ¬ s.InUse c) ∨
  (c ∉ s.pool.freeQueue ∧ c ∉ s.pool.recySet ∧ (s.fds.map Reg.conn).count c = 1)

theorem Server.Inv.inOnePlace {s : Server} (h : s.Inv) {c : ConnId}
    (hc : c ∈ s.pool.pconnsQueue) : s.InOnePlace c := by
  have hle := h.count_le c
  have hpos : 0 < s.pool.pconnsQueue.count c := List.count_pos_iff.mpr hc
  have honce := h.once c
  unfold Server.InOnePlace Server.InUse
  simp only [← List.count_eq_zero]
  omega

/-- **The pool is partitioned.** In every state the server reaches, every connection is in exactly
one place, `get_conn` hands out none that is in use or waits to be recycled, and the three counters
are the sizes of the free queue, the pool and the recycle set. -/
theorem conn_pool_partition (wait : Int) (nows : List Int) (acts : List ServerAct) (s : Server)
    (h : run Server.step (Server.start wait nows) acts = some s) :
    (∀ c ∈ s.pool.pconnsQueue, s.InOnePlace c) ∧
    (∀ sockFd now, ∃ c p, s.pool.getConn sockFd now = some (c, p) ∧
      ¬ s.InUse c ∧ c ∉ s.pool.recySet) ∧
    s.pool.freeConnsCnt = s.pool.freeQueue.length ∧
    s.pool.totalConnsCnt = s.pool.pconnsQueue.length ∧
    s.pool.totalRecyConnsCnt = s.pool.recySet.length := by
  have hinv : s.Inv := run_invariant_all Server.step_inv (start_inv wait nows) h
  refine ⟨fun c hc => hinv.inOnePlace hc, ?_, hinv.free, hinv.total, hinv.recy⟩
  intro sockFd now
  obtain ⟨c, p, hget⟩ := Pool.getConn_isSome hinv.free sockFd now
  exact ⟨c, p, hget, hinv.getConn_unused hget⟩

/-- A pool of one connection that serves two clients, loses one each way, and recycles. -/
def mixedHistory : List ServerAct :=
  [.accept 5 0, .accept 6 0, .readable ⟨5, 0, true⟩ (.got []) 3,
    .readable ⟨6, 1, false⟩ (.fail .econnreset) 4, .acceptFails 5 5, .recycle 0 83, .accept 5 90]

def mixedServer : Server := (run Server.step (Server.start 80 [0]) mixedHistory).getD ⟨.empty 0, []⟩

theorem conn_pool_partition_mixed :
    mixedServer.InOnePlace 0 ∧ mixedServer.InOnePlace 1 ∧
      mixedServer.pool.freeConnsCnt = mixedServer.pool.freeQueue.length ∧
      mixedServer.pool.totalConnsCnt = mixedServer.pool.pconnsQueue.length ∧
      mixedServer.pool.totalRecyConnsCnt = mixedServer.pool.recySet.length := by
  obtain ⟨hplace, -, hcnts⟩ := conn_pool_partition 80 [0] mixedHistory mixedServer rfl
  exact ⟨hplace 0 (by decide), hplace 1 (by decide), hcnts⟩

end Mgx
