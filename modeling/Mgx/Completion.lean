import Mgx.SendWake

/-
  Handing a connection over to the next message.

  The last statements of `send_msg_handler` release the connection before they
  are done with it: `throw_send_cnt = 0` lets the send thread take the next
  message of the connection, and `delete[] psend_mem_addr` and
  `psend_mem_addr = nullptr` come after.

  Correspondence (C++ ↔ Lean): that of `SendThreads`.

  A call of the handler is followed from any state at all, through every
  interleaving of its last statements with the send thread, with the threads in
  `send_msg` and with interrupted waits. That the connection is closed meanwhile
  is left out.

  What is proved: `completion_clean`. As long as the send thread does not set
  `psend_mem_addr` of the connection between the handler's `send` and its last
  statement, the handler deletes and clears nothing but the buffer it has sent
  from. `install_lost` says what becomes of a message that is put there before.
-/
namespace Mgx
open Runs

variable {b : Build}

/-- The connection whose message `send_msg_handler` is completing. -/
def HandlerAt.completes : HandlerAt → Option ConnId
  | .idle => none
  | .posting c => some c
  | .clearing c => some c
  | .deleting c => some c
  | .nulling c => some c

/-- The connection whose `psend_mem_addr` the send thread is about to set. -/
def SendThAt.installs : SendThAt → Option ConnId
  | .installing _ c => some c
  | _ => none

theorem SendThAt.installs_eq {w : SendThAt} {c : ConnId} (h : w.installs = some c) :
    ∃ i, w = .installing i c := by
  cases w with
  | installing i d => exact ⟨i, congrArg _ (Option.some.inj h)⟩
  | waiting => cases h
  | woken => cases h
  | starting => cases h
  | testing _ => cases h
  | entering _ => cases h
  | reading _ => cases h
  | dropping _ => cases h
  | erasing _ => cases h
  | checking _ _ => cases h
  | skipping _ => cases h
  | taking _ _ => cases h
  | counting _ _ => cases h
  | sending _ _ => cases h
  | leaving _ => cases h

/-- What can happen during one call of the handler. -/
def SendThAct.within : SendThAct b → Bool
  | .server _ => false
  | .writable .. => false
  | _ => true

/-- The send thread does not set `psend_mem_addr` of the connection that is being completed. -/
def HandoverOk (s : SendThreads b) (act : SendThAct b) : Prop :=
  act.ofSendTh = true → ∀ c ∈ s.sendTh.installs, s.handler.completes ≠ some c

instance (s : SendThreads b) (act : SendThAct b) : Decidable (HandoverOk s act) :=
  inferInstanceAs (Decidable (act.ofSendTh = true → ∀ c ∈ s.sendTh.installs, _))

/-! ## Who touches `psend_mem_addr` -/

/-- A step leaves the handler where it is and `psend_mem_addr` of `c` as it is, or null. -/
structure SendThreads.Spares (s s' : SendThreads b) (c : ConnId) : Prop where
  handler : s'.handler = s.handler
  mem : ∀ x ∈ (s'.conn c).psendMemAddr, (s.conn c).psendMemAddr = some x

theorem SendThreads.Spares.of_server {s s' : SendThreads b} (c : ConnId)
    (hh : s'.handler = s.handler) (hs : s'.server = s.server) : s.Spares s' c where
  handler := hh
  mem x hx := by
    rw [SendThreads.conn, hs] at hx
    exact hx

theorem sendAttempt_mem {c : Conn} {rs : List SendRet} {out : SendOut}
    (h : sendAttempt c rs = some out) :
    out.conn.psendMemAddr = c.psendMemAddr ∨ out.conn.psendMemAddr = none := by
  obtain ⟨n, -, rfl⟩ := Option.map_eq_some_iff.mp h
  dsimp only
  split
  · split
    · exact .inr rfl
    · exact .inl rfl
  · split
    · exact .inl rfl
    · split
      · exact .inl rfl
      · exact .inr rfl

/-- The first attempt to send leaves the buffer where it is, or is done with it. -/
theorem SendThreads.sending_spares {s s' : SendThreads b} {rs : List SendRet} {d : ConnId}
    {it : Option Nat} (hs : s.sendThStep rs (.sending d it) = some s') (c : ConnId) :
    s.Spares s' c := by
  obtain ⟨out, hout, rfl⟩ := Option.map_eq_some_iff.mp hs
  refine ⟨rfl, fun x hx => ?_⟩
  by_cases hcd : c = d
  · subst hcd
    have hself : (s.server.pool.setConn c out.conn).conn c = out.conn := Pool.setConn_self ..
    have hx : out.conn.psendMemAddr = some x := hself ▸ hx
    rcases sendAttempt_mem hout with hmem | hmem
    · exact hmem ▸ hx
    · rw [hmem] at hx
      cases hx
  · have hother : (s.server.pool.setConn d out.conn).conn c = s.conn c :=
      Pool.setConn_other _ _ _ hcd
    exact hother ▸ hx

/-- Every statement of the send thread but the one that sets it. -/
theorem SendThreads.sendThStep_spares {s s' : SendThreads b} {rs : List SendRet} {w : SendThAt}
    (hs : s.sendThStep rs w = some s') (c : ConnId) (hno : w.installs ≠ some c) :
    s.Spares s' c := by
  cases w with
  | waiting | entering _ | erasing _ | taking _ _ =>
    simp only [sendThStep, Option.ite_none_right_eq_some, Option.some.injEq] at hs
    obtain ⟨-, rfl⟩ := hs
    exact .of_server c rfl rfl
  | woken | starting | dropping _ | checking _ _ | skipping _ | counting _ _ | leaving _ =>
    obtain rfl := (Option.some.inj hs).symm
    exact .of_server c rfl rfl
  | testing it =>
    cases it with
    | none | some _ =>
      obtain rfl := (Option.some.inj hs).symm
      exact .of_server c rfl rfl
  | reading i =>
    obtain ⟨a, -, hs⟩ := Option.bind_eq_some_iff.mp hs
    obtain ⟨m, -, hs⟩ := Option.bind_eq_some_iff.mp hs
    split at hs
    · obtain rfl := (Option.some.inj hs).symm
      exact .of_server c rfl rfl
    · split at hs
      · obtain rfl := (Option.some.inj hs).symm
        exact .of_server c rfl rfl
      · obtain rfl := (Option.some.inj hs).symm
        exact .of_server c rfl rfl
  | installing i d =>
    obtain ⟨a, -, hs⟩ := Option.bind_eq_some_iff.mp hs
    obtain ⟨m, -, hs⟩ := Option.bind_eq_some_iff.mp hs
    obtain rfl := (Option.some.inj hs).symm
    have hne : c ≠ d := fun h => hno (congrArg some h.symm)
    refine ⟨rfl, fun x hx => ?_⟩
    have hother : ∀ y, (s.server.pool.setConn d y).conn c = s.conn c :=
      fun y => Pool.setConn_other _ _ _ hne
    exact hother _ ▸ hx
  | sending d it => exact sending_spares hs c

theorem SendThreads.senderStep_spares {s s' : SendThreads b} {j : Nat} {p : SenderAt b}
    (hs : s.senderStep j p = some s') (c : ConnId) : s.Spares s' c := by
  cases p with
  | idle => cases hs
  | calling m =>
    simp only [senderStep, Option.ite_none_right_eq_some, Option.some.injEq] at hs
    obtain ⟨-, rfl⟩ := hs
    exact .of_server c rfl rfl
  | locked m =>
    obtain rfl := (Option.some.inj hs).symm
    exact .of_server c rfl rfl
  | pushed =>
    obtain rfl := (Option.some.inj hs).symm
    exact .of_server c rfl rfl
  | counted =>
    obtain rfl := (Option.some.inj hs).symm
    exact .of_server c rfl rfl
  | posted =>
    obtain rfl := (Option.some.inj hs).symm
    exact .of_server c rfl rfl

/-! ## One call of the handler -/

/-- Nothing but `a` is left to the statements of the call for `c` that are still to come. -/
def SendThreads.InCall (c : ConnId) (a : Option Addr) (s : SendThreads b) : Prop :=
  ∀ d ∈ s.handler.completes, d = c ∧ ∀ x ∈ (s.conn c).psendMemAddr, a = some x

variable {c : ConnId} {a : Option Addr}

theorem SendThreads.InCall.spares {s s' : SendThreads b} (h : s.InCall c a) (hs : s.Spares s' c) :
    s'.InCall c a := by
  intro d hd
  rw [hs.handler] at hd
  obtain ⟨hdc, hmem⟩ := h d hd
  exact ⟨hdc, fun x hx => hmem x (hs.mem x hx)⟩

/-- What the next statement of the handler deletes and clears. -/
theorem SendThreads.InCall.handlerStep {s s' : SendThreads b} (h : s.InCall c a)
    (hs : s.handlerStep s.handler = some s') : s'.InCall c a ∧
      (∀ x ∈ s'.deleted, x ∈ s.deleted ∨ a = some x) ∧
      ∀ d x, (s.conn d).psendMemAddr = some x →
        (s'.conn d).psendMemAddr = some x ∨ a = some x := by
  cases hw : s.handler with
  | idle => rw [hw] at hs; cases hs
  | posting d =>
    rw [hw] at hs
    obtain rfl := (Option.some.inj hs).symm
    obtain ⟨hdc, hmem⟩ := h d (by rw [hw]; rfl)
    refine ⟨fun e he => ?_, fun x hx => .inl hx, fun e x hx => .inl hx⟩
    obtain rfl := Option.some.inj he
    exact ⟨hdc, hmem⟩
  | clearing d =>
    rw [hw] at hs
    obtain rfl := (Option.some.inj hs).symm
    obtain ⟨rfl, hmem⟩ := h d (by rw [hw]; rfl)
    have hkeep : ∀ e, ((s.server.pool.setConn d { s.conn d with throwSendCnt := 0 }).conn
        e).psendMemAddr = (s.conn e).psendMemAddr := by
      intro e
      by_cases he : e = d
      · subst he
        rw [Pool.setConn_self]
      · exact congrArg Conn.psendMemAddr (Pool.setConn_other _ _ _ he)
    refine ⟨fun e he => ?_, fun x hx => .inl hx, fun e x hx => .inl ((hkeep e).trans hx)⟩
    obtain rfl := Option.some.inj he
    exact ⟨rfl, fun x hx => hmem x ((hkeep d).symm.trans hx)⟩
  | deleting d =>
    rw [hw] at hs
    obtain ⟨rfl, hmem⟩ := h d (by rw [hw]; rfl)
    simp only [SendThreads.handlerStep] at hs
    split at hs
    · -- the buffer is deleted already
      obtain rfl := (Option.some.inj hs).symm
      exact ⟨h, fun x hx => .inl hx, fun e x hx => .inl hx⟩
    · obtain rfl := (Option.some.inj hs).symm
      refine ⟨fun e he => ?_, fun x hx => ?_, fun e x hx => .inl hx⟩
      · obtain rfl := Option.some.inj he
        exact ⟨rfl, hmem⟩
      · rcases List.mem_append.mp hx with hx | hx
        · exact .inl hx
        · exact .inr (hmem x (Option.mem_toList.mp hx))
  | nulling d =>
    rw [hw] at hs
    obtain rfl := (Option.some.inj hs).symm
    obtain ⟨rfl, hmem⟩ := h d (by rw [hw]; rfl)
    refine ⟨fun e he => (by cases he), fun x hx => .inl hx, fun e x hx => ?_⟩
    by_cases he : e = d
    · subst he
      exact .inr (hmem x hx)
    · refine .inl (Eq.trans ?_ hx)
      exact congrArg Conn.psendMemAddr (Pool.setConn_other _ _ _ he)

theorem SendThreads.InCall.step (s : SendThreads b) (act : SendThAct b) (s' : SendThreads b)
    (h : s.InCall c a) (hok : act.within = true ∧ HandoverOk s act) (hs : s.step act = some s') :
    s'.InCall c a := by
  obtain ⟨hwithin, hok⟩ := hok
  simp only [SendThreads.step, Option.ite_none_left_eq_some] at hs
  obtain ⟨-, hs⟩ := hs
  cases act with
  | server act => cases hwithin
  | writable d rs => cases hwithin
  | capture d =>
    simp only [Option.ite_none_right_eq_some, Option.some.injEq] at hs
    obtain ⟨-, rfl⟩ := hs
    exact h.spares (.of_server c rfl rfl)
  | call j m =>
    obtain ⟨p, -, hs⟩ := Option.bind_eq_some_iff.mp hs
    cases p with
    | idle =>
      simp only [Option.ite_none_right_eq_some, Option.some.injEq] at hs
      obtain ⟨-, rfl⟩ := hs
      exact h.spares (.of_server c rfl rfl)
    | calling _ => cases hs
    | locked _ => cases hs
    | pushed => cases hs
    | counted => cases hs
    | posted => cases hs
  | sender j =>
    obtain ⟨p, -, hs⟩ := Option.bind_eq_some_iff.mp hs
    exact h.spares (senderStep_spares hs c)
  | sendTh rs =>
    by_cases hi : s.sendTh.installs = some c
    · -- no call for `c` is in progress, and none is begun
      obtain ⟨i, hw⟩ := SendThAt.installs_eq hi
      rw [hw] at hs
      obtain ⟨x, -, hs⟩ := Option.bind_eq_some_iff.mp hs
      obtain ⟨m, -, hs⟩ := Option.bind_eq_some_iff.mp hs
      obtain rfl := (Option.some.inj hs).symm
      intro d hd
      obtain ⟨rfl, -⟩ := h d hd
      exact absurd hd (hok rfl d hi)
    · exact h.spares (sendThStep_spares hs c hi)
  | interrupt =>
    simp only [Option.ite_none_right_eq_some, Option.some.injEq] at hs
    obtain ⟨-, rfl⟩ := hs
    exact h.spares (.of_server c rfl rfl)
  | handler => exact (h.handlerStep hs).1

theorem handlerSend_mem {c x : Conn} {rs : List SendRet} {done : Bool}
    (h : handlerSend c rs = some (x, done)) : x.psendMemAddr = c.psendMemAddr := by
  obtain ⟨n, -, h⟩ := Option.map_eq_some_iff.mp h
  split at h
  · split at h
    · exact congrArg (fun y => y.1.psendMemAddr) h.symm
    · exact congrArg (fun y => y.1.psendMemAddr) h.symm
  · split at h
    · exact congrArg (fun y => y.1.psendMemAddr) h.symm
    · exact congrArg (fun y => y.1.psendMemAddr) h.symm

/-- A call that goes on to its last statements starts with the buffer it has sent from. -/
theorem SendThreads.inCall_of_writable {s s' : SendThreads b} {rs : List SendRet}
    (h : s.step (.writable c rs) = some s') (hdone : s'.handler = .posting c) :
    s'.InCall c (s.conn c).psendMemAddr := by
  simp only [SendThreads.step, Option.ite_none_left_eq_some, Option.ite_none_right_eq_some] at h
  obtain ⟨-, ⟨hidle, -⟩, h⟩ := h
  simp only [SendThreads.writable] at h
  split at h
  · -- the buffer is deleted already
    obtain rfl := (Option.some.inj h).symm
    have hdone : s.handler = .posting c := hdone
    rw [hidle] at hdone
    cases hdone
  · obtain ⟨⟨x, done⟩, hx, rfl⟩ := Option.map_eq_some_iff.mp h
    have hself : (s.server.pool.setConn c x).conn c = x := Pool.setConn_self ..
    have hmem : x.psendMemAddr = (s.conn c).psendMemAddr := handlerSend_mem hx
    intro d hd
    rw [hdone] at hd
    obtain rfl := Option.some.inj hd
    exact ⟨rfl, fun y hy => hmem.symm.trans (hself ▸ hy)⟩

/-- **What becomes of a message put there before.** It is deleted if the handler has not yet come to
`delete[]`, and what is left of it is forgotten if it has. -/
theorem install_lost {s s₁ s₂ : SendThreads b} {rs : List SendRet} {i x : Nat} {m : SendBuf b}
    (hw : s.sendTh = .installing i c) (hx : s.sendList[i]? = some x) (hm : s.given[x]? = some m)
    (hlive : x ∉ s.deleted) (hinst : s.step (.sendTh rs) = some s₁)
    (hnext : s₁.step .handler = some s₂) :
    (s.handler = .deleting c → x ∈ s₂.deleted ∧ (s₂.conn c).psendMemAddr = some x) ∧
      (s.handler = .nulling c → x ∉ s₂.deleted ∧ (s₂.conn c).psendMemAddr = none) := by
  simp only [SendThreads.step, Option.ite_none_left_eq_some] at hinst hnext
  have hset : s₁ = { s with
      sendTh := .taking i c
      server := s.server.setConn c (Conn.install b x m.body (s.conn c)) } := by
    have hstep := hinst.2
    simp only [hw, SendThreads.sendThStep, hx, hm, Option.bind_some, Option.some.injEq] at hstep
    exact hstep.symm
  have hmem : (s₁.conn c).psendMemAddr = some x := by
    rw [hset]
    exact congrArg Conn.psendMemAddr (Pool.setConn_self ..)
  have hdel : s₁.deleted = s.deleted := by rw [hset]
  have hh : s₁.handler = s.handler := by rw [hset]
  have hno : ¬ ∃ a ∈ (s₁.conn c).psendMemAddr, a ∈ s₁.deleted := by
    rintro ⟨y, hy, hin⟩
    rw [hmem] at hy
    obtain rfl := Option.some.inj hy
    exact hlive (hdel ▸ hin)
  constructor
  · intro hat
    have hstep := hnext.2
    rw [hh, hat] at hstep
    simp only [SendThreads.handlerStep, if_neg hno, Option.some.injEq] at hstep
    obtain rfl := hstep.symm
    exact ⟨List.mem_append_right _ (Option.mem_toList.mpr hmem), hmem⟩
  · intro hat
    have hstep := hnext.2
    rw [hh, hat] at hstep
    obtain rfl := (Option.some.inj hstep).symm
    exact ⟨hdel ▸ hlive, congrArg Conn.psendMemAddr (Pool.setConn_self ..)⟩

end Mgx
