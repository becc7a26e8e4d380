import Mgx.Events

/-
  Which occupancy a handler is called for.

  `epoll_process_events` tests an event once, by `c->fd == -1` and one instance
  bit, and then calls up to two handlers for it. The bit is flipped each time the
  connection is taken from the free queue, and only `free_conn` sets `fd` to -1: a
  connection that waits in the recycle set looks as it did when it was open.

  What is proved: `dispatch_current`. The handlers are called for open occupancies
  only, in every run in which the test is made when it can tell (`CheckOk`) and no
  connection is closed between the test and the last handler of its event. The
  invariant behind it (`Marked`) ties the bit to the parity of the number of times
  the connection has been handed out since the registration.
-/
namespace Mgx
open Runs

/-- The event for which a handler is still to be called, past the stale test. -/
def Phase.due : Phase → Option Event
  | .fetch => none
  | .handle e r w => if r || w then some e else none
  | .reading e w => if w then some e else none
  | .releasing e w _ => if w then some e else none

/-- The connection whose descriptor the step closes. -/
def EvSys.closing (s : EvSys) : EvAct → Option ConnId
  | .release _ => (s.phase.rel.filter fun r => !r.closed).map Rel.conn
  | .hbRelease _ => (s.hb.filter fun r => !r.closed).map Rel.conn
  | _ => none

/-- The stale test can tell: since the registration the connection has been handed out an odd number
of times, or it is free, or it has been neither closed nor handed out. -/
def EvSys.CheckOk (s : EvSys) (e : Event) : Prop :=
  (s.occ e.conn - e.occ) % 2 = 1 ∨ e.conn ∈ s.pool.freeQueue ∨
    (s.occ e.conn = e.occ ∧ e.conn ∈ s.owners)

/-- Releases are decided as `close_once` asks; an event that calls a handler is tested when the test
can tell; and no connection is closed while a handler is due for an event of it. -/
def DispatchOk (s : EvSys) (act : EvAct) : Prop :=
  DecideOk s act ∧ (∀ c ∈ s.closing act, ∀ e ∈ s.phase.due, e.conn ≠ c) ∧
    (act = .check → ∀ e ∈ s.batch.head?, e.epollin || e.epollout → s.CheckOk e)

/-- Every handler was called for the occupancy the event was registered for, while its descriptor was
open. -/
def EvSys.Current (s : EvSys) : Prop := ∀ d ∈ s.dispatched, d.nowOcc = some d.evOcc

/-! ## The instance bit -/

/-- The mark of occupancy `k` of connection `c`: the bit is now `inst` exactly when the connection has
been handed out an even number of times since. -/
def EvSys.Marked (s : EvSys) (c : ConnId) (k : Nat) (inst : Bool) : Prop :=
  c ∈ s.pool.pconnsQueue ∧ 1 ≤ k ∧ k ≤ s.occ c ∧
    ((s.pool.conn c).instanceBit = inst ↔ (s.occ c - k) % 2 = 0)

/-- Open descriptors and the events of the batch are marked, and a connection that is free again has
no descriptor number. -/
structure Marks (s : EvSys) : Prop where
  fds : ∀ d ∈ s.fds, s.Marked d.conn d.occ d.inst
  batch : ∀ e ∈ s.batch, s.Marked e.conn e.occ e.inst
  free : ∀ c ∈ s.pool.freeQueue, 1 ≤ s.occ c → (s.pool.conn c).fd = -1

/-- The places of `close_once`, the marks, and a handler that is due is due for an open occupancy. -/
structure DispInv (s : EvSys) : Prop where
  places : s.Inv
  marks : Marks s
  due : ∀ e ∈ s.phase.due, e.conn ∈ s.owners ∧ s.occ e.conn = e.occ
  log : s.Current

/-- The mark survives a step that changes no instance bit and no occupancy. -/
theorem EvSys.Marked.keep {s s' : EvSys} {c : ConnId} {k : Nat} {inst : Bool}
    (h : s.Marked c k inst) (hpool : s'.pool.pconnsQueue = s.pool.pconnsQueue)
    (hocc : s'.occ = s.occ) (hbit : ∀ d, (s'.pool.conn d).instanceBit = (s.pool.conn d).instanceBit) :
    s'.Marked c k inst := by
  unfold EvSys.Marked at h ⊢
  rw [hpool, hocc, hbit]
  exact h

/-- A step that changes no instance bit and no occupancy, and frees only what it leaves without a
number. -/
theorem Marks.frame {s s' : EvSys} (h : Marks s) (hpool : s'.pool.pconnsQueue = s.pool.pconnsQueue)
    (hbit : ∀ d, (s'.pool.conn d).instanceBit = (s.pool.conn d).instanceBit)
    (hocc : s'.occ = s.occ) (hfds : ∀ d ∈ s'.fds, ∃ x ∈ s.fds, x.conn = d.conn ∧ x.occ = d.occ ∧
      x.inst = d.inst) (hbatch : ∀ e ∈ s'.batch, e ∈ s.batch)
    (hfree : ∀ c ∈ s'.pool.freeQueue, (s'.pool.conn c).fd = -1 ∨
      c ∈ s.pool.freeQueue ∧ (s'.pool.conn c).fd = (s.pool.conn c).fd) : Marks s' := by
  refine ⟨fun d hd => ?_, fun e he => (h.batch e (hbatch e he)).keep hpool hocc hbit,
    fun c hc hone => ?_⟩
  · obtain ⟨x, hx, h1, h2, h3⟩ := hfds d hd
    rw [← h1, ← h2, ← h3]
    exact (h.fds x hx).keep hpool hocc hbit
  · rcases hfree c hc with hfd | ⟨hin, hfd⟩
    · exact hfd
    · rw [hfd]
      rw [hocc] at hone
      exact h.free c hin hone

/-- A step of the threads alone, which takes no event into the batch. -/
theorem Marks.threads {s : EvSys} (h : Marks s) (timerQueue : List (Int × MsgHdr)) (phase : Phase)
    (que : List MsgHdr) (hb : Option Rel) (dispatched : List Dispatch) {batch : List Event}
    (hbatch : ∀ e ∈ batch, e ∈ s.batch) :
    Marks { s with
      timerQueue := timerQueue
      batch := batch
      phase := phase
      que := que
      hb := hb
      dispatched := dispatched } :=
  h.frame rfl (fun _ => rfl) rfl (fun d hd => ⟨d, hd, rfl, rfl, rfl⟩) hbatch
    fun _ hc => .inr ⟨hc, rfl⟩

/-- A step of the threads alone that leaves the batch as it is. -/
theorem Marks.same {s : EvSys} (h : Marks s) (timerQueue : List (Int × MsgHdr)) (phase : Phase)
    (que : List MsgHdr) (hb : Option Rel) (dispatched : List Dispatch) :
    Marks { s with
      timerQueue := timerQueue
      phase := phase
      que := que
      hb := hb
      dispatched := dispatched } :=
  h.threads timerQueue phase que hb dispatched fun _ he => he

/-- `free_conn` changes no instance bit and takes the descriptor number away. -/
theorem Pool.freeConn_fd (p : Pool) (c d : ConnId) :
    ((p.freeConn c).conn d).instanceBit = (p.conn d).instanceBit ∧
      ((p.freeConn c).conn d).fd = if d = c then -1 else (p.conn d).fd := by
  by_cases hd : d = c
  · subst hd
    show ((p.setConn d _).conn d).instanceBit = _ ∧ ((p.setConn d _).conn d).fd = _
    rw [Pool.setConn_self, if_pos rfl]
    exact ⟨rfl, rfl⟩
  · rw [Pool.freeConn_other _ hd, if_neg hd]
    exact ⟨rfl, rfl⟩

theorem Marks.freeConn {s s' : EvSys} {p : Pool} {c : ConnId} (h : Marks s)
    (hp : p.pconnsQueue = s.pool.pconnsQueue ∧ p.freeQueue = s.pool.freeQueue ∧
      p.conn = s.pool.conn) (hpool : s'.pool = p.freeConn c)
    (hocc : s'.occ = s.occ) (hfds : s'.fds = s.fds) (hbatch : s'.batch = s.batch) : Marks s' := by
  obtain ⟨h1, h2, h3⟩ := hp
  refine h.frame (by rw [hpool]; exact h1) (fun d => ?_) hocc
    (fun d hd => ⟨d, hfds ▸ hd, rfl, rfl, rfl⟩) (fun e he => hbatch ▸ he) fun d hd => ?_
  · rw [hpool, (p.freeConn_fd c d).1, h3]
  · rw [hpool] at hd ⊢
    rw [(p.freeConn_fd c d).2]
    by_cases hdc : d = c
    · exact .inl (if_pos hdc)
    · right
      rw [if_neg hdc, h3]
      rcases List.mem_append.mp hd with hd | hd
      · exact ⟨h2 ▸ hd, rfl⟩
      · exact absurd (List.mem_singleton.mp hd) hdc

/-- `close` changes no mark. -/
theorem Marks.close {s : EvSys} (h : Marks s) (r : Rel) : Marks (s.closeStep r) :=
  h.frame rfl (fun _ => rfl) rfl
    (fun d hd => ⟨d, (KeyTable.remove_sublist _ _ _).subset hd, rfl, rfl, rfl⟩) (fun _ he => he)
    fun _ hc => .inr ⟨hc, rfl⟩

theorem Marks.finish {s : EvSys} (h : Marks s) (r : Rel) (now : Int) : Marks (s.finishStep r now) := by
  unfold EvSys.finishStep
  cases r.kind with
  | immediate => exact h.freeConn ⟨rfl, rfl, rfl⟩ rfl rfl rfl rfl
  | delayed =>
    have hqueues : (s.pool.insertRecy r.conn now).pconnsQueue = s.pool.pconnsQueue ∧
        (s.pool.insertRecy r.conn now).freeQueue = s.pool.freeQueue := by
      unfold Pool.insertRecy
      split <;> exact ⟨rfl, rfl⟩
    refine h.frame hqueues.1 (fun d => (s.pool.insertRecy_fd r.conn d now).2) rfl
      (fun d hd => ⟨d, hd, rfl, rfl, rfl⟩) (fun _ he => he) fun c hc => .inr ⟨?_, ?_⟩
    · rw [← hqueues.2]; exact hc
    · exact (s.pool.insertRecy_fd r.conn c now).1

/-- Handing a connection out flips its bit, or the connection is new. -/
theorem Pool.getConn_bit {p p' : Pool} {sockFd now : Int} {c : ConnId}
    (h : p.getConn sockFd now = some (c, p')) :
    ((p'.conn c).instanceBit = !(p.conn c).instanceBit ∧ p'.pconnsQueue = p.pconnsQueue ∧
      ∃ rest, p.freeQueue = c :: rest ∧ p'.freeQueue = rest) ∨
    (c = p.pconnsQueue.length ∧ p'.pconnsQueue = p.pconnsQueue ++ [c] ∧
      p'.freeQueue = p.freeQueue) := by
  obtain ⟨-, rest, hq, rfl⟩ | ⟨-, hc, rfl⟩ := Pool.getConn_cases h
  · refine .inl ⟨?_, rfl, rest, hq, rfl⟩
    show ((p.setConn c _).conn c).instanceBit = _
    rw [Pool.setConn_self]
    rfl
  · exact .inr ⟨hc, rfl, rfl⟩

/-- Accepting keeps the marks: those of the connection handed out flip with its bit. -/
theorem Marks.accept {s s' : EvSys} {pend infl : ConnId → Nat} {fd now : Int} {c : ConnId}
    (h : Marks s) (hp : Places s pend infl) (hs : s.accept fd now = some (c, s')) : Marks s' := by
  have hplaces := (hp.accept hs).1
  have hc := (hp.accept hs).2.1
  obtain ⟨p, hget, -, rfl⟩ := EvSys.accept_spec hs
  have hpool : c ∈ p.pconnsQueue := hplaces.owned_pool hc
  have hself : Function.update s.occ c (s.occ c + 1) c = s.occ c + 1 := Function.update_self ..
  have hsub : ∀ x ∈ s.pool.pconnsQueue, x ∈ p.pconnsQueue := by
    intro x hx
    rcases Pool.getConn_bit hget with ⟨-, hq, -⟩ | ⟨-, hq, -⟩
    · rw [hq]; exact hx
    · rw [hq]; exact List.mem_append_left _ hx
  have hmark : ∀ {x k inst}, s.Marked x k inst → EvSys.Marked { s with
      pool := p
      occ := Function.update s.occ c (s.occ c + 1)
      fds := ⟨fd, c, (p.conn c).instanceBit, s.occ c + 1, false⟩ :: s.fds
      timerQueue := emplace s.timerQueue (now + s.heartWaitTime) ⟨c, (p.conn c).curSeq⟩ }
      x k inst := by
    rintro x k inst ⟨hin, hk, hle, hbit⟩
    by_cases hx : x = c
    · subst hx
      rcases Pool.getConn_bit hget with ⟨hflip, -⟩ | ⟨hnew, -⟩
      · refine ⟨hsub x hin, hk, by simp only [hself]; omega, ?_⟩
        simp only [hself, hflip]
        have hnot : ((!(s.pool.conn x).instanceBit) = inst) ↔
            ¬ ((s.pool.conn x).instanceBit = inst) := by
          cases (s.pool.conn x).instanceBit <;> cases inst <;> decide
        rw [hnot, hbit]
        omega
      · rw [hnew] at hin
        exact absurd hin (List.count_eq_zero.mp hp.fresh)
    · have hother : Function.update s.occ c (s.occ c + 1) x = s.occ x :=
        Function.update_of_ne hx ..
      refine ⟨hsub x hin, hk, by simp only [hother]; exact hle, ?_⟩
      simp only [hother, Pool.getConn_other hget hx]
      exact hbit
  refine ⟨fun d hd => ?_, fun e he => hmark (h.batch e he), fun x hx hone => ?_⟩
  · rcases List.mem_cons.mp hd with rfl | hd
    · refine ⟨hpool, Nat.succ_le_succ (Nat.zero_le _), Nat.le_of_eq hself.symm, ?_⟩
      simp only [hself, Nat.sub_self, Nat.zero_mod]
    · exact hmark (h.fds d hd)
  · have hx' : x ∈ s.pool.freeQueue := by
      rcases Pool.getConn_bit hget with ⟨-, -, rest, hq, hq'⟩ | ⟨-, -, hq'⟩
      · have hx : x ∈ p.freeQueue := hx
        rw [hq'] at hx
        rw [hq]
        exact List.mem_cons_of_mem _ hx
      · rw [← hq']; exact hx
    have hne : x ≠ c := by
      rintro rfl
      exact List.count_eq_zero.mp (hplaces.owned hc).2.1 hx
    have hother : Function.update s.occ c (s.occ c + 1) x = s.occ x :=
      Function.update_of_ne hne ..
    have hone : 1 ≤ Function.update s.occ c (s.occ c + 1) x := hone
    rw [hother] at hone
    show (p.conn x).fd = -1
    rw [Pool.getConn_other hget hne]
    exact h.free x hx' hone

/-- The occupancy whose descriptor is open, of a connection that owns one. -/
theorem Places.openOcc {s : EvSys} {pend infl : ConnId → Nat} (h : Places s pend infl) {c : ConnId}
    (hc : c ∈ s.owners) : s.openOcc c = some (s.occ c) := by
  obtain ⟨d, hd, rfl⟩ := List.mem_map.mp hc
  have hocc := (h.own d hd).2
  have hsome : (s.fds.find? (fun x => x.conn == d.conn && x.occ == s.occ d.conn)).isSome :=
    List.find?_isSome.mpr ⟨d, hd, by simp [hocc]⟩
  obtain ⟨x, hx⟩ := Option.isSome_iff_exists.mp hsome
  have hxocc := List.find?_some hx
  simp only [Bool.and_eq_true, beq_iff_eq] at hxocc
  unfold EvSys.openOcc
  rw [hx, Option.map_some, hxocc.2]

/-- A handler that is due is called for an open occupancy. -/
theorem DispInv.dispatch {s : EvSys} (h : DispInv s) {e : Event} (he : e ∈ s.phase.due) :
    (s.dispatch e).Current := by
  intro d hd
  rcases List.mem_append.mp hd with hd | hd
  · exact h.log d hd
  · obtain rfl := List.mem_singleton.mp hd
    obtain ⟨hopen, hocc⟩ := h.due e he
    rw [← hocc]
    exact h.places.openOcc hopen

/-! ## The steps -/

/-- Closing keeps the other descriptors open. -/
theorem Places.close_owners {s : EvSys} {pend infl : ConnId → Nat} (h : Places s pend infl)
    {r : Rel} (hr : r.conn ∈ s.owners) {c : ConnId} (hne : c ≠ r.conn) (hc : c ∈ s.owners) :
    c ∈ (s.closeStep r).owners := by
  have hcount := (h.remove hr).1 c
  have hpos : 0 < s.owners.count c := List.count_pos_iff.mpr hc
  have hzero : [r.conn].count c = 0 :=
    List.count_eq_zero.mpr fun hm => hne (List.mem_singleton.mp hm)
  rw [hzero] at hcount
  exact List.count_pos_iff.mp (by
    show 0 < ((KeyTable.remove Desc.fd (s.pool.conn r.conn).fd s.fds).map Desc.conn).count c
    omega)

/-- A thread about to close a connection finds its descriptor open. -/
theorem Places.pending_owner {s : EvSys} {pend infl : ConnId → Nat} (h : Places s pend infl)
    {r : Rel} (hr : 0 < pend r.conn) : r.conn ∈ s.owners :=
  List.count_pos_iff.mp (Nat.lt_of_lt_of_le hr (h.pend r.conn))

/-- What passes the stale test when the test can tell is current. -/
theorem DispInv.check {s : EvSys} (h : DispInv s) {e : Event} (hmark : s.Marked e.conn e.occ e.inst)
    (hstale : s.pool.staleEvent e.conn e.inst = false) (hok : s.CheckOk e) :
    e.conn ∈ s.owners ∧ s.occ e.conn = e.occ := by
  obtain ⟨-, hk, hle, hbit⟩ := hmark
  simp only [Pool.staleEvent, Bool.or_eq_false_iff, beq_eq_false_iff_ne, bne_eq_false_iff_eq]
    at hstale
  obtain ⟨hfd, hinst⟩ := hstale
  rcases hok with hodd | hfree | ⟨hocc, hopen⟩
  · -- an odd number of flips would show
    have := hbit.mp hinst
    omega
  · exact absurd (h.marks.free e.conn hfree (Nat.le_trans hk hle)) hfd
  · exact ⟨hopen, hocc⟩

/-- The locked part of a release leaves a handler that is due as it is. -/
theorem DispInv.finish {s : EvSys} {e : Option Event} (h : DispInv s)
    (hdue : ∀ x ∈ e, x.conn ∈ s.owners ∧ s.occ x.conn = x.occ) (r : Rel) (now : Int) :
    Marks (s.finishStep r now) ∧ (s.finishStep r now).Current ∧
      ∀ x ∈ e, x.conn ∈ (s.finishStep r now).owners ∧ (s.finishStep r now).occ x.conn = x.occ := by
  obtain ⟨howners, hocc, -, -, hlog⟩ := s.finishStep_same r now
  refine ⟨h.marks.finish r now, ?_, ?_⟩
  · intro d hd
    rw [hlog] at hd
    exact h.log d hd
  · rw [howners, hocc]
    exact hdue

/-- Closing a connection leaves a handler that is due for another one as it is. -/
theorem DispInv.close {s : EvSys} {e : Option Event} (h : DispInv s)
    (hdue : ∀ x ∈ e, x.conn ∈ s.owners ∧ s.occ x.conn = x.occ) {r : Rel} (hr : r.conn ∈ s.owners)
    (hne : ∀ x ∈ e, x.conn ≠ r.conn) : Marks (s.closeStep r) ∧
      ∀ x ∈ e, x.conn ∈ (s.closeStep r).owners ∧ (s.closeStep r).occ x.conn = x.occ := by
  refine ⟨h.marks.close r, ?_⟩
  intro x hx
  obtain ⟨hopen, hocc⟩ := hdue x hx
  exact ⟨h.places.close_owners hr (hne x hx) hopen, hocc⟩

/-- What `accept` leaves: no handler is due, and none has been called. -/
theorem EvSys.accept_log {s s' : EvSys} {fd now : Int} {c : ConnId}
    (hs : s.accept fd now = some (c, s')) : s'.dispatched = s.dispatched := by
  obtain ⟨p, -, -, rfl⟩ := EvSys.accept_spec hs
  rfl

/-- Watching a descriptor for writing changes no owner. -/
theorem EvSys.arm_owners (s : EvSys) (c : ConnId) (out : Bool) :
    EvSys.owners { s with
      fds := s.fds.map (fun d => if d.conn = c then { d with out := out } else d) } = s.owners := by
  show (s.fds.map _).map Desc.conn = s.fds.map Desc.conn
  rw [List.map_map]
  apply List.map_congr_left
  intro d _
  show (if d.conn = c then { d with out := out } else d).conn = d.conn
  split <;> rfl

/-- It changes no mark either. -/
theorem Marks.arm {s : EvSys} (h : Marks s) (c : ConnId) (out : Bool) : Marks { s with
    fds := s.fds.map (fun d => if d.conn = c then { d with out := out } else d) } := by
  refine h.frame rfl (fun _ => rfl) rfl (fun d hd => ?_) (fun _ he => he) fun _ hc => .inr ⟨hc, rfl⟩
  obtain ⟨x, hx, rfl⟩ := List.mem_map.mp hd
  refine ⟨x, hx, ?_⟩
  split <;> exact ⟨rfl, rfl, rfl⟩

/-- A ping changes no mark. -/
theorem Marks.ping {s : EvSys} (h : Marks s) (c : ConnId) (now : Int) : Marks { s with
    pool := s.pool.setConn c { s.pool.conn c with lastPingTime := now } } := by
  have hkeep : ∀ d, ((s.pool.setConn c { s.pool.conn c with lastPingTime := now }).conn
      d).instanceBit = (s.pool.conn d).instanceBit ∧
      ((s.pool.setConn c { s.pool.conn c with lastPingTime := now }).conn d).fd =
        (s.pool.conn d).fd := by
    intro d
    by_cases hd : d = c
    · subst hd
      rw [Pool.setConn_self]
      exact ⟨rfl, rfl⟩
    · rw [Pool.setConn_other _ _ _ hd]
      exact ⟨rfl, rfl⟩
  exact h.frame rfl (fun d => (hkeep d).1) rfl (fun d hd => ⟨d, hd, rfl, rfl, rfl⟩)
    (fun _ he => he) fun d hd => .inr ⟨hd, (hkeep d).2⟩

/-- `event_accept` calls no handler. -/
theorem DispInv.accept {s s' : EvSys} {fd now : Int} (h : DispInv s) (hplaces : s'.Inv)
    (hs : s.step (.accept fd now) = some s') : DispInv s' := by
  simp only [EvSys.step, Option.ite_none_right_eq_some, Option.map_eq_some_iff] at hs
  obtain ⟨hphase, ⟨c, s₁⟩, hacc, rfl⟩ := hs
  obtain ⟨-, -, -, hphase', -⟩ := h.places.accept hacc
  refine ⟨hplaces, h.marks.accept h.places hacc, ?_, ?_⟩
  · rw [hphase', hphase]
    intro e he
    cases he
  · intro d hd
    rw [EvSys.accept_log hacc] at hd
    exact h.log d hd

theorem DispInv.acceptFails {s s' : EvSys} {fd now : Int} (h : DispInv s) (hplaces : s'.Inv)
    (hs : s.step (.acceptFails fd now) = some s') : DispInv s' := by
  simp only [EvSys.step, Option.ite_none_right_eq_some, Option.map_eq_some_iff] at hs
  obtain ⟨hphase, ⟨c, s₁⟩, hacc, rfl⟩ := hs
  obtain ⟨-, -, -, hphase', -⟩ := h.places.accept hacc
  have hmarks := ((h.marks.accept h.places hacc).close ⟨c, .immediate, false⟩).finish
    ⟨c, .immediate, true⟩ now
  refine ⟨hplaces, hmarks.same .., ?_, ?_⟩
  · show ∀ e ∈ s₁.phase.due, _
    rw [hphase', hphase]
    intro e he
    cases he
  · intro d hd
    have hd : d ∈ s₁.dispatched := hd
    rw [EvSys.accept_log hacc] at hd
    exact h.log d hd

/-- An event past the stale test is current. -/
theorem DispInv.tested {s s' : EvSys} (h : DispInv s) (hplaces : s'.Inv)
    (hcheck : ∀ e ∈ s.batch.head?, e.epollin || e.epollout → s.CheckOk e)
    (hs : s.step .check = some s') : DispInv s' := by
  obtain ⟨e, rest, hphase, hbatch, hcase⟩ := EvSys.step_check hs
  have hin : e ∈ s.batch := by rw [hbatch]; exact List.mem_cons_self ..
  have hsub : ∀ x ∈ rest, x ∈ s.batch := by
    intro x hx
    rw [hbatch]
    exact List.mem_cons_of_mem _ hx
  obtain ⟨-, rfl⟩ | ⟨hstale, rfl⟩ := hcase
  · exact ⟨hplaces, h.marks.threads _ _ _ _ _ hsub, h.due, h.log⟩
  · refine ⟨hplaces, h.marks.threads _ _ _ _ _ hsub, ?_, h.log⟩
    intro x hx
    have hx : (if e.epollin || e.epollout then some e else none) = some x := hx
    split at hx
    next hflags =>
      obtain rfl := Option.some.inj hx
      exact h.check (h.marks.batch e hin) hstale (hcheck e (by rw [hbatch]; rfl) hflags)
    next => cases hx

/-- The epoll thread goes on with a release. -/
theorem DispInv.release {s s' : EvSys} {now : Int} (h : DispInv s) (hplaces : s'.Inv)
    (hclosing : ∀ c ∈ s.closing (.release now), ∀ e ∈ s.phase.due, e.conn ≠ c)
    (hs : s.step (.release now) = some s') : DispInv s' := by
  obtain ⟨e, w, r, hphase, hcase⟩ := EvSys.step_release hs
  have hdue := h.due
  rw [hphase] at hdue
  obtain ⟨-, rfl⟩ | ⟨hclosed, rfl⟩ := hcase
  · obtain ⟨hmarks, hlog, hdue⟩ := h.finish hdue r now
    exact ⟨hplaces, hmarks.same .., hdue, hlog⟩
  · have hr : r.conn ∈ s.owners := by
      apply h.places.pending_owner
      rw [hphase]
      exact Nat.lt_of_lt_of_le (pendAt_pos hclosed) (Nat.le_add_right _ _)
    have hne := hclosing r.conn
      (by simp [EvSys.closing, hphase, Phase.rel, Option.filter, hclosed])
    rw [hphase] at hne
    obtain ⟨hmarks, hdue⟩ := h.close hdue hr hne
    exact ⟨hplaces, hmarks.same .., hdue, h.log⟩

/-- The heartbeat thread goes on with a release. -/
theorem DispInv.hbRelease {s s' : EvSys} {now : Int} (h : DispInv s) (hplaces : s'.Inv)
    (hclosing : ∀ c ∈ s.closing (.hbRelease now), ∀ e ∈ s.phase.due, e.conn ≠ c)
    (hs : s.step (.hbRelease now) = some s') : DispInv s' := by
  obtain ⟨r, hhb, ⟨-, rfl⟩ | ⟨hclosed, rfl⟩⟩ := EvSys.step_hbRelease hs
  · obtain ⟨hmarks, hlog, hdue⟩ := h.finish h.due r now
    refine ⟨hplaces, hmarks.same .., ?_, hlog⟩
    obtain ⟨-, -, hphase, -, -⟩ := s.finishStep_same r now
    show ∀ x ∈ (s.finishStep r now).phase.due, _
    rw [hphase]
    exact hdue
  · have hr : r.conn ∈ s.owners := by
      apply h.places.pending_owner
      rw [hhb]
      exact Nat.lt_of_lt_of_le (pendAt_pos hclosed) (Nat.le_add_left _ _)
    have hne := hclosing r.conn (by simp [EvSys.closing, hhb, Option.filter, hclosed])
    obtain ⟨hmarks, hdue⟩ := h.close h.due hr hne
    exact ⟨hplaces, hmarks.same .., hdue, h.log⟩

/-- Every step that meets the condition keeps the invariant. -/
theorem EvSys.step_dispatch (s : EvSys) (act : EvAct) (s' : EvSys) (h : DispInv s)
    (hok : DispatchOk s act) (hs : s.step act = some s') : DispInv s' := by
  have hplaces := EvSys.step_inv s act s' h.places hok.1 hs
  obtain ⟨-, hclosing, hcheck⟩ := hok
  cases act with
  | accept fd now => exact h.accept hplaces hs
  | acceptFails fd now => exact h.acceptFails hplaces hs
  | arm c out =>
    simp only [EvSys.step, Option.ite_none_right_eq_some, Option.some.injEq] at hs
    obtain ⟨-, rfl⟩ := hs
    refine ⟨hplaces, h.marks.arm c out, ?_, h.log⟩
    rw [EvSys.arm_owners]
    exact h.due
  | ping c now =>
    simp only [EvSys.step, Option.some.injEq] at hs
    subst hs
    exact ⟨hplaces, h.marks.ping c now, h.due, h.log⟩
  | epollWait evs =>
    simp only [EvSys.step, Option.ite_none_right_eq_some, Option.some.injEq] at hs
    obtain ⟨⟨hphase, -, -, hevs⟩, rfl⟩ := hs
    refine ⟨hplaces, ⟨h.marks.fds, fun e he => ?_, h.marks.free⟩, h.due, h.log⟩
    obtain ⟨d, hd, hconn, hinst, hocc, -⟩ := hevs e he
    rw [← hconn, ← hinst, ← hocc]
    exact h.marks.fds d hd
  | check => exact h.tested hplaces (hcheck rfl) hs
  | callRead =>
    obtain ⟨e, w, hphase, rfl⟩ := EvSys.step_callRead hs
    have hdue : e ∈ s.phase.due := by rw [hphase]; rfl
    refine ⟨hplaces, h.marks.same .., ?_, h.dispatch hdue⟩
    intro x hx
    have hx : (if w then some e else none) = some x := hx
    split at hx
    · obtain rfl := Option.some.inj hx
      exact h.due e hdue
    · cases hx
  | recv ret =>
    obtain ⟨e, w, hphase, rfl | ⟨kind, -, rfl⟩⟩ := EvSys.step_recv hs
    · exact h
    · have hdue := h.due
      rw [hphase] at hdue
      exact ⟨hplaces, h.marks.same .., hdue, h.log⟩
  | readDone =>
    obtain ⟨e, w, hphase, rfl⟩ := EvSys.step_readDone hs
    have hdue := h.due
    rw [hphase] at hdue
    exact ⟨hplaces, h.marks.same .., hdue, h.log⟩
  | callWrite =>
    obtain ⟨e, hphase, rfl⟩ := EvSys.step_callWrite hs
    have hdue : e ∈ s.phase.due := by rw [hphase]; rfl
    refine ⟨hplaces, h.marks.same .., ?_, h.dispatch hdue⟩
    intro x hx
    cases hx
  | next =>
    obtain ⟨e, -, rfl⟩ := EvSys.step_next hs
    refine ⟨hplaces, h.marks.same .., ?_, h.log⟩
    intro x hx
    cases hx
  | release now => exact h.release hplaces hclosing hs
  | expire now =>
    simp only [EvSys.step, Option.ite_none_right_eq_some, Option.some.injEq] at hs
    obtain ⟨-, rfl⟩ := hs
    exact ⟨hplaces, h.marks.same .., h.due, h.log⟩
  | hbTest now =>
    obtain ⟨hdr, rest, -, -, ⟨-, rfl⟩ | rfl⟩ := EvSys.step_hbTest hs
    · exact ⟨hplaces, h.marks.same .., h.due, h.log⟩
    · exact ⟨hplaces, h.marks.same .., h.due, h.log⟩
  | hbRelease now => exact h.hbRelease hplaces hclosing hs
  | recycle c now =>
    simp only [EvSys.step, Option.ite_none_right_eq_some, Option.some.injEq] at hs
    obtain ⟨-, rfl⟩ := hs
    refine ⟨hplaces, h.marks.freeConn (p := { s.pool with
      recySet := s.pool.recySet.erase c
      totalRecyConnsCnt := s.pool.totalRecyConnsCnt - 1 }) ⟨rfl, rfl, rfl⟩ rfl rfl rfl rfl,
      h.due, h.log⟩

theorem start_dispatch (wait heartWait : Int) (nows : List Int) :
    DispInv (EvSys.start wait heartWait nows) :=
  ⟨EvSys.start_inv wait heartWait nows,
    ⟨fun _ hd => (nomatch hd), fun _ he => (nomatch he), fun _ _ hone => (nomatch hone)⟩,
    fun _ he => (nomatch he), fun _ hd => (nomatch hd)⟩

/-- **Handlers run for open occupancies.** In a run in which releases are decided as `close_once`
asks, every event that calls a handler is tested when the stale test can tell, and no connection is
closed while a handler is due for an event of it, every call of `r_handler(c)` and `w_handler(c)`
finds `c` in the occupancy the event was registered for, with its descriptor open. -/
theorem dispatch_current (wait heartWait : Int) (nows : List Int) (acts : List EvAct) (s : EvSys)
    (hrun : run EvSys.step (EvSys.start wait heartWait nows) acts = some s)
    (hok : Meets EvSys.step DispatchOk (EvSys.start wait heartWait nows) acts) : s.Current :=
  (run_invariant EvSys.step_dispatch acts _ s (start_dispatch wait heartWait nows) hok hrun).log

instance (s : EvSys) (e : Event) : Decidable (s.CheckOk e) :=
  inferInstanceAs (Decidable (_ ∨ _ ∨ _))

instance (s : EvSys) (act : EvAct) : Decidable (DispatchOk s act) :=
  inferInstanceAs (Decidable (DecideOk s act ∧ (∀ c ∈ s.closing act, ∀ e ∈ s.phase.due, e.conn ≠ c) ∧
    (act = .check → ∀ e ∈ s.batch.head?, e.epollin || e.epollout → s.CheckOk e)))

/-- Two events: the first calls both handlers; before the second is reached its client is evicted and
its connection freed and handed out again. -/
def reusedInBatch : List EvAct :=
  [.accept 5 0, .accept 6 0, .ping 0 50, .arm 0 true,
    .epollWait [⟨0, true, 1, true, true⟩, ⟨1, true, 1, true, false⟩], .check, .callRead,
    .recv (.got [8]), .readDone, .callWrite, .next, .expire 100, .hbTest 100, .hbTest 100,
    .hbRelease 100, .hbRelease 100, .recycle 1 180, .accept 6 181, .check]

theorem dispatch_current_reusedInBatch : ∃ s, run EvSys.step (EvSys.start 80 30 [0, 0])
    reusedInBatch = some s ∧ s.dispatched = [⟨0, 1, some 1⟩, ⟨0, 1, some 1⟩] ∧ s.Current :=
  ⟨_, rfl, rfl, dispatch_current 80 30 [0, 0] reusedInBatch _ rfl (by decide)⟩

/-- One event says that a client with a half-sent reply has shut down and that there is room to send. -/
def shutdownWhileSending : List EvAct :=
  [.accept 5 0, .arm 0 true, .epollWait [⟨0, true, 1, true, true⟩], .check, .callRead,
    .recv (.got []), .release 10, .release 10, .callWrite]

/-- The read handler closes the connection, and the write handler is called for it. -/
theorem dispatched_closed : ∃ s, run EvSys.step (EvSys.start 80 30 [0]) shutdownWhileSending = some s ∧
    s.dispatched = [⟨0, 1, some 1⟩, ⟨0, 1, none⟩] ∧ ¬ s.Current := by
  refine ⟨_, rfl, rfl, fun h => ?_⟩
  have := h ⟨0, 1, none⟩ (List.mem_cons_of_mem _ (List.mem_cons_self ..))
  simp at this

end Mgx
