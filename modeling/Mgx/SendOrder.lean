import Mgx.SendQueue

/-
  The order in which the messages of one client start.

  The send thread skips the messages of a busy connection and walks on, and the
  epoll thread clears the busy flag whenever it completes a partial send. If that
  happens while a message of the connection lies behind the walk and another one
  before it, the second is started first.

  What is proved: `send_order`. In a run in which no completion falls into such a
  walk, and no message is pushed into one for a connection that is idle again,
  the messages of one occupancy are started in the order in which they were given
  to `send_msg`. The invariant that carries it (`OrderInv.walk`) is that a
  connection with messages on both sides of the iterator is busy.
-/
namespace Mgx
open Runs

variable {b : Build}

/-- The elements the walk has passed. -/
def Iter.before : Iter → List Addr → List Addr
  | .elem i, l => l.take i
  | .idle, _ => []
  | .past, _ => []

/-- The elements the walk has still to visit. -/
def Iter.after : Iter → List Addr → List Addr
  | .elem i, l => l.drop i
  | .idle, _ => []
  | .past, _ => []

/-- The message header of a buffer. -/
def SendSys.hdrOf (s : SendSys b) (a : Addr) : Option MsgHdr := s.given[a]?.map SendBuf.hdr

/-- The buffer is for connection `c` in its current occupancy. -/
def SendSys.Current (s : SendSys b) (c : ConnId) (a : Addr) : Prop :=
  s.hdrOf a = some ⟨c, (s.conn c).curSeq⟩

instance (s : SendSys b) (c : ConnId) (a : Addr) : Decidable (s.Current c a) :=
  inferInstanceAs (Decidable (_ = _))

/-- Messages under one header (one connection in one occupancy) were started in the order in which
they were given to `send_msg`. -/
def SendSys.InOrder (s : SendSys b) : Prop :=
  s.started.Pairwise fun x y => s.hdrOf x = s.hdrOf y → x < y

/-- A message that is given to `send_msg`. -/
def SendAct.pushed : SendAct b → Option (SendBuf b)
  | .sendMsg m => some m
  | _ => none

/-- The connection whose write handler runs, and what `send` answers. -/
def SendAct.handled : SendAct b → Option (ConnId × List SendRet)
  | .writable c rs => some (c, rs)
  | _ => none

/-- No completion while messages of the connection lie on both sides of the iterator; no push into a
walk that has passed a message of a connection that is no longer busy; and a message visited whose
number compares equal is of the current occupancy (the number has not wrapped). -/
def OrderOk (s : SendSys b) (act : SendAct b) : Prop :=
  (∀ w ∈ act.handled, completes (s.conn w.1) w.2 →
    (∃ x ∈ s.it.before s.sendList, s.Current w.1 x) →
      ¬ ∃ y ∈ s.it.after s.sendList, s.Current w.1 y) ∧
  (∀ m ∈ act.pushed, (s.conn m.hdr.pconn).throwSendCnt ≤ 0 →
    m.hdr.curSeq = (s.conn m.hdr.pconn).curSeq →
      ∀ x ∈ s.it.before s.sendList, ¬ s.Current m.hdr.pconn x) ∧
  (act.turn ≠ none → ∀ m ∈ s.visited,
    seqEq (s.conn m.hdr.pconn).curSeq m.hdr.curSeq = true →
      (s.conn m.hdr.pconn).curSeq = m.hdr.curSeq)

/-! ## The list around the iterator -/

/-- The element at position `i`, what is around it, and what is left without it. -/
theorem split_at {l : List Addr} {i : Nat} {a : Addr} (h : l[i]? = some a) :
    l = l.take i ++ a :: l.drop (i + 1) ∧ l.take (i + 1) = l.take i ++ [a] ∧
      l.eraseIdx i = l.take i ++ l.drop (i + 1) ∧
      (l.eraseIdx i).take i = l.take i ∧ (l.eraseIdx i).drop i = l.drop (i + 1) := by
  obtain ⟨hi, ha⟩ := List.getElem?_eq_some_iff.mp h
  have hlen : (l.take i).length = i := by rw [List.length_take]; omega
  have herase : l.eraseIdx i = l.take i ++ l.drop (i + 1) := List.eraseIdx_eq_take_drop_succ ..
  have hdrop : l.drop i = a :: l.drop (i + 1) := by rw [← ha]; exact List.drop_eq_getElem_cons hi
  refine ⟨?_, ?_, herase, ?_, ?_⟩
  · rw [← hdrop, List.take_append_drop]
  · rw [List.take_add_one, h]; rfl
  · rw [herase]; exact List.take_left' hlen
  · rw [herase]; exact List.drop_left' hlen

theorem mem_before_iterAt {i n : Nat} {l : List Addr} {x : Addr}
    (h : x ∈ (iterAt i n).before l) : x ∈ l.take i := by
  unfold iterAt at h
  split at h
  · exact h
  · cases h

theorem mem_after_iterAt {i n : Nat} {l : List Addr} {x : Addr}
    (h : x ∈ (iterAt i n).after l) : x ∈ l.drop i := by
  unfold iterAt at h
  split at h
  · exact h
  · cases h

/-! ## The invariant -/

/-- The list is in the order of the `send_msg` calls, a started message precedes those of its
occupancy that are still in the list, and a connection with messages of its current occupancy on
both sides of the iterator is busy. -/
structure OrderInv (s : SendSys b) : Prop where
  inv : s.Inv
  sorted : s.sendList.Pairwise (· < ·)
  known : ∀ a : Nat, a ∈ s.sendList ∨ a ∈ s.started → a < s.given.length
  ahead : ∀ x ∈ s.started, ∀ y ∈ s.sendList, s.hdrOf x = s.hdrOf y → x < y
  order : s.InOrder
  walk : ∀ c, (s.conn c).throwSendCnt ≤ 0 → ∀ x ∈ s.it.before s.sendList,
    ∀ y ∈ s.it.after s.sendList, s.Current c x → ¬ s.Current c y

/-- No header is ahead of its connection. -/
theorem SendSys.Inv.hdrOf_le {s : SendSys b} (h : s.Inv) {a : Addr} {hdr : MsgHdr}
    (ha : s.hdrOf a = some hdr) : hdr.pconn ∈ s.server.pool.pconnsQueue ∧
      hdr.curSeq ≤ (s.conn hdr.pconn).curSeq := by
  simp only [SendSys.hdrOf, Option.map_eq_some_iff] at ha
  obtain ⟨m, hm, rfl⟩ := ha
  obtain ⟨hpool, hle, -⟩ := h.bound m.hdr (h.given m (List.mem_of_getElem? hm))
  exact ⟨hpool, hle⟩

/-- A step that leaves the queue alone keeps the order when the walk invariant survives. -/
theorem OrderInv.frame {s s' : SendSys b} (h : OrderInv s) (hinv : s'.Inv)
    (hlist : s'.sendList = s.sendList) (hgiven : s'.given = s.given)
    (hstarted : s'.started = s.started)
    (hwalk : ∀ c, (s'.conn c).throwSendCnt ≤ 0 → ∀ x ∈ s'.it.before s.sendList,
      ∀ y ∈ s'.it.after s.sendList, s'.Current c x → ¬ s'.Current c y) : OrderInv s' := by
  have hhdr : ∀ a, s'.hdrOf a = s.hdrOf a := fun a => by unfold SendSys.hdrOf; rw [hgiven]
  refine ⟨hinv, hlist ▸ h.sorted, ?_, ?_, ?_, hlist ▸ hwalk⟩
  · rw [hlist, hstarted, hgiven]; exact h.known
  · rw [hlist, hstarted]
    intro x hx y hy he
    rw [hhdr, hhdr] at he
    exact h.ahead x hx y hy he
  · unfold SendSys.InOrder
    rw [hstarted]
    apply List.Pairwise.imp _ h.order
    intro x y hxy he
    rw [hhdr, hhdr] at he
    exact hxy he

/-- Those left are behind those started, when the message at `i` is among these. -/
theorem OrderInv.ahead_erase {s : SendSys b} (h : OrderInv s) {i : Nat} {a : Addr}
    (ha : s.sendList[i]? = some a) {started : List Addr}
    (hstarted : started = s.started ∨ started = s.started ++ [a] ∧
      ∀ x ∈ s.sendList.take i, s.hdrOf x ≠ s.hdrOf a) :
    ∀ x ∈ started, ∀ y ∈ s.sendList.eraseIdx i, s.hdrOf x = s.hdrOf y → x < y := by
  obtain ⟨hsplit, -, herase, -, -⟩ := split_at ha
  intro x hx y hy he
  have hold : x ∈ s.started → x < y := fun hx =>
    h.ahead x hx y ((List.eraseIdx_sublist ..).subset hy) he
  rcases hstarted with rfl | ⟨rfl, hbefore⟩
  · exact hold hx
  · rcases List.mem_append.mp hx with hx | hx
    · exact hold hx
    · -- the message just started: those left of the same header come after it
      obtain rfl := List.mem_singleton.mp hx
      have hsorted := h.sorted
      rw [hsplit, List.pairwise_append, List.pairwise_cons] at hsorted
      rw [herase] at hy
      rcases List.mem_append.mp hy with hy | hy
      · exact absurd he.symm (hbefore y hy)
      · exact hsorted.2.1.1 y hy

/-- A message of the list may be started next. -/
theorem OrderInv.order_start {s : SendSys b} (h : OrderInv s) {a : Addr} (hmem : a ∈ s.sendList) :
    (s.started ++ [a]).Pairwise fun x y => s.hdrOf x = s.hdrOf y → x < y := by
  rw [List.pairwise_append]
  refine ⟨h.order, List.pairwise_singleton .., fun x hx y hy he => ?_⟩
  obtain rfl := List.mem_singleton.mp hy
  exact h.ahead x hx y hmem he

/-- The walk goes on over what is left. -/
theorem OrderInv.walk_erase {s : SendSys b} (h : OrderInv s) {i : Nat} {a : Addr}
    (hit : s.it = .elem i) (ha : s.sendList[i]? = some a) {c : ConnId}
    (hidle : (s.conn c).throwSendCnt ≤ 0) {x y : Addr}
    (hx : x ∈ (iterAt i (s.sendList.eraseIdx i).length).before (s.sendList.eraseIdx i))
    (hy : y ∈ (iterAt i (s.sendList.eraseIdx i).length).after (s.sendList.eraseIdx i))
    (hcur : s.Current c x) : ¬ s.Current c y := by
  obtain ⟨-, -, -, htake, hdrop⟩ := split_at ha
  have hx := mem_before_iterAt hx
  have hy := mem_after_iterAt hy
  rw [htake] at hx
  rw [hdrop] at hy
  refine h.walk c hidle x ?_ y ?_ hcur
  · rw [hit]
    exact hx
  · rw [hit]
    show y ∈ s.sendList.drop i
    exact List.mem_of_mem_drop (i := 1) (by rwa [List.drop_drop])

/-- The element at the iterator is off the list, started or not. -/
theorem OrderInv.erase {s s' : SendSys b} (h : OrderInv s) (hinv : s'.Inv) {i : Nat} {a : Addr}
    (hit : s.it = .elem i) (ha : s.sendList[i]? = some a)
    (hlist : s'.sendList = s.sendList.eraseIdx i) (hgiven : s'.given = s.given)
    (hit' : s'.it = iterAt i s'.sendList.length)
    (hstarted : s'.started = s.started ∨ s'.started = s.started ++ [a] ∧
      ∀ x ∈ s.sendList.take i, s.hdrOf x ≠ s.hdrOf a)
    (hcur : ∀ d, (s'.conn d).curSeq = (s.conn d).curSeq)
    (hbusy : ∀ d, (s.conn d).throwSendCnt ≤ 0 ∨
      (s'.conn d).throwSendCnt = (s.conn d).throwSendCnt) : OrderInv s' := by
  have hhdr : s'.hdrOf = s.hdrOf := funext fun x => by unfold SendSys.hdrOf; rw [hgiven]
  have hcurrent : s'.Current = s.Current := by
    funext d x
    unfold SendSys.Current
    rw [hhdr, hcur]
  have hsub : (s.sendList.eraseIdx i).Sublist s.sendList := List.eraseIdx_sublist ..
  have hmem : a ∈ s.sendList := List.mem_of_getElem? ha
  refine ⟨hinv, hlist ▸ h.sorted.sublist hsub, fun x hx => ?_, ?_, ?_, ?_⟩
  · rw [hgiven]
    rcases hx with hx | hx
    · exact h.known x (.inl (hsub.subset (hlist ▸ hx)))
    · rcases hstarted with hst | ⟨hst, -⟩
      · exact h.known x (.inr (hst ▸ hx))
      · rw [hst] at hx
        rcases List.mem_append.mp hx with hx | hx
        · exact h.known x (.inr hx)
        · exact h.known x (.inl (List.mem_singleton.mp hx ▸ hmem))
  · rw [hhdr, hlist]
    exact h.ahead_erase ha hstarted
  · unfold SendSys.InOrder
    rw [hhdr]
    rcases hstarted with hst | ⟨hst, -⟩
    · rw [hst]
      exact h.order
    · rw [hst]
      exact h.order_start hmem
  · intro c hidle x hx y hy
    rw [hit', hlist] at hx hy
    rw [hcurrent]
    refine h.walk_erase hit ha ?_ hx hy
    rcases hbusy c with hb | hb
    · exact hb
    · rw [← hb]
      exact hidle

/-- A message is pushed at the end of the list. -/
theorem OrderInv.push {s : SendSys b} (h : OrderInv s) {m : SendBuf b} (hinv : (s.sendMsg m).Inv)
    (hok : OrderOk s (.sendMsg m)) : OrderInv (s.sendMsg m) := by
  have hhdr : ∀ a : Nat, a < s.given.length → (s.sendMsg m).hdrOf a = s.hdrOf a := by
    intro a ha
    show (s.given ++ [m])[a]?.map SendBuf.hdr = s.given[a]?.map SendBuf.hdr
    rw [List.getElem?_append_left ha]
  have hnew : (s.sendMsg m).hdrOf s.given.length = some m.hdr := by
    show (s.given ++ [m])[s.given.length]?.map SendBuf.hdr = _
    rw [List.getElem?_append_right (Nat.le_refl _), Nat.sub_self]
    rfl
  have hlen : (s.sendMsg m).given.length = s.given.length + 1 := List.length_append
  refine ⟨hinv, ?_, fun a ha => ?_, fun x hx y hy he => ?_, ?_, ?_⟩
  · show (s.sendList ++ [s.given.length]).Pairwise (· < ·)
    rw [List.pairwise_append]
    refine ⟨h.sorted, List.pairwise_singleton .., fun x hx y hy => ?_⟩
    rw [List.mem_singleton.mp hy]
    exact h.known x (.inl hx)
  · rw [hlen]
    rcases ha with ha | ha
    · rcases List.mem_append.mp ha with ha | ha
      · exact Nat.lt_succ_of_lt (h.known a (.inl ha))
      · rw [List.mem_singleton.mp ha]
        exact Nat.lt_succ_self _
    · exact Nat.lt_succ_of_lt (h.known a (.inr ha))
  · rcases List.mem_append.mp hy with hy | hy
    · rw [hhdr x (h.known x (.inr hx)), hhdr y (h.known y (.inl hy))] at he
      exact h.ahead x hx y hy he
    · rw [List.mem_singleton.mp hy]
      exact h.known x (.inr hx)
  · apply List.Pairwise.imp_of_mem _ h.order
    intro x y hx hy hxy he
    rw [hhdr x (h.known x (.inr hx)), hhdr y (h.known y (.inr hy))] at he
    exact hxy he
  · intro c hidle x hx y hy hcx hcy
    have hidle : (s.conn c).throwSendCnt ≤ 0 := hidle
    cases hit : s.it with
    | idle => rw [show (s.sendMsg m).it = .idle from hit] at hx; cases hx
    | past => rw [show (s.sendMsg m).it = .past from hit] at hx; cases hx
    | elem i =>
      rw [show (s.sendMsg m).it = .elem i from hit] at hx hy
      have hx : x ∈ (s.sendList ++ [s.given.length]).take i := hx
      have hy : y ∈ (s.sendList ++ [s.given.length]).drop i := hy
      have hi : i ≤ s.sendList.length := by
        have := List.length_pos_of_mem hy
        rw [List.length_drop, List.length_append, List.length_singleton] at this
        omega
      rw [List.take_append_of_le_length hi] at hx
      rw [List.drop_append_of_le_length hi] at hy
      have hxb : x ∈ s.it.before s.sendList := by rw [hit]; exact hx
      have hxc : s.Current c x := by
        unfold SendSys.Current at hcx ⊢
        rwa [hhdr x (h.known x (.inl (List.mem_of_mem_take hx)))] at hcx
      rcases List.mem_append.mp hy with hy | hy
      · have hya : y ∈ s.it.after s.sendList := by rw [hit]; exact hy
        have hyc : s.Current c y := by
          unfold SendSys.Current at hcy ⊢
          rwa [hhdr y (h.known y (.inl (List.mem_of_mem_drop hy)))] at hcy
        exact h.walk c hidle x hxb y hya hxc hyc
      · -- the new message, for a connection the walk has passed and that is not busy
        rw [List.mem_singleton.mp hy] at hcy
        unfold SendSys.Current at hcy
        rw [hnew] at hcy
        have hhd : m.hdr = ⟨c, (s.conn c).curSeq⟩ := Option.some.inj hcy
        have hpc : m.hdr.pconn = c := by rw [hhd]
        have hsq : m.hdr.curSeq = (s.conn c).curSeq := by rw [hhd]
        apply hok.2.1 m rfl (by rw [hpc]; exact hidle) (by rw [hpc]; exact hsq) x hxb
        rw [hpc]
        exact hxc

/-- What `setConn` leaves to see of a connection. -/
theorem Server.setConn_conn (s : Server) {c d : ConnId} (x : Conn) :
    (d = c ∧ (s.setConn c x).pool.conn d = x) ∨
      (d ≠ c ∧ (s.setConn c x).pool.conn d = s.pool.conn d) := by
  by_cases hd : d = c
  · subst hd; exact .inl ⟨rfl, Pool.setConn_self ..⟩
  · exact .inr ⟨hd, Pool.setConn_other _ _ _ hd⟩

/-- The subject of a step of the server has left its occupancy: no message is of the new one. -/
theorem OrderInv.server_step {s : SendSys b} (h : OrderInv s) {a : ServerAct} {sv : Server}
    {dels : List Addr} (hsv : s.server.step a = some sv)
    (hinv : ({ s with server := sv, deleted := dels } : SendSys b).Inv) :
    OrderInv ({ s with server := sv, deleted := dels } : SendSys b) := by
  refine h.frame hinv rfl rfl rfl fun c hidle x hx y hy hcx hcy => ?_
  obtain ⟨rfl, -⟩ | ⟨c', hc⟩ := Server.step_moves h.inv.server hsv
  · exact h.walk c hidle x hx y hy hcx hcy
  · by_cases hcc : c = c'
    · subst hcc
      obtain ⟨hpool, hle⟩ := h.inv.hdrOf_le hcx
      have hlt := hc.seq hpool
      exact absurd hle (Nat.not_le.mpr hlt)
    · have hsame : sv.pool.conn c = s.server.pool.conn c := hc.other c hcc
      unfold SendSys.Current SendSys.conn at hcx hcy
      unfold SendSys.conn at hidle
      simp only [hsame] at hcx hcy hidle
      exact h.walk c hidle x hx y hy hcx hcy

/-- The message passed over belongs to a busy connection. -/
theorem OrderInv.skipBusy {s : SendSys b} (h : OrderInv s) {i a : Nat} {m : SendBuf b}
    (hit : s.it = .elem i) (ha : s.sendList[i]? = some a) (hm : s.given[a]? = some m)
    (hbusy : (s.conn m.hdr.pconn).throwSendCnt > 0) (hinv : (s.skipBusy i).Inv) :
    OrderInv (s.skipBusy i) := by
  obtain ⟨-, htake, -⟩ := split_at ha
  refine h.frame hinv rfl rfl rfl fun c hidle x hx y hy hcx => ?_
  have hx := mem_before_iterAt hx
  have hy := mem_after_iterAt hy
  rw [htake] at hx
  rcases List.mem_append.mp hx with hx | hx
  · apply h.walk c hidle x _ y _ hcx
    · rw [hit]; exact hx
    · rw [hit]
      show y ∈ s.sendList.drop i
      exact List.mem_of_mem_drop (i := 1) (by rwa [List.drop_drop])
  · obtain rfl := List.mem_singleton.mp hx
    have hc : m.hdr.pconn = c := by
      have hcx : s.given[x]?.map SendBuf.hdr = some ⟨c, (s.conn c).curSeq⟩ := hcx
      rw [hm] at hcx
      exact congrArg MsgHdr.pconn (Option.some.inj hcx)
    have hidle : (s.conn c).throwSendCnt ≤ 0 := hidle
    rw [hc] at hbusy
    omega

/-- The message started is the first of its header: one behind the walk would make its connection
busy. -/
theorem OrderInv.sendOne {s s' : SendSys b} (h : OrderInv s) {i a : Nat} {m : SendBuf b}
    {rs : List SendRet} (hit : s.it = .elem i) (ha : s.sendList[i]? = some a)
    (hm : s.given[a]? = some m) (hcur : (s.conn m.hdr.pconn).curSeq = m.hdr.curSeq)
    (hidle : (s.conn m.hdr.pconn).throwSendCnt ≤ 0) (hinv : s'.Inv)
    (hsend : s.sendOne i a m rs = some s') : OrderInv s' := by
  simp only [SendSys.sendOne, Option.map_eq_some_iff] at hsend
  obtain ⟨out, hout, rfl⟩ := hsend
  obtain ⟨-, hkeep, -⟩ := sendFirst_owner hout
  have hhdr : s.hdrOf a = some ⟨m.hdr.pconn, (s.conn m.hdr.pconn).curSeq⟩ := by
    unfold SendSys.hdrOf
    rw [hm, hcur]
    rfl
  refine h.erase hinv hit ha rfl rfl rfl (.inr ⟨rfl, fun x hx he => ?_⟩)
    (Server.setConn_curSeq hkeep) fun d => ?_
  · obtain ⟨hsplit, -⟩ := split_at ha
    apply h.walk m.hdr.pconn hidle x _ a _ (he.trans hhdr) hhdr
    · rw [hit]; exact hx
    · rw [hit]
      show a ∈ s.sendList.drop i
      obtain ⟨hi, hget⟩ := List.getElem?_eq_some_iff.mp ha
      rw [List.drop_eq_getElem_cons hi, hget]
      exact List.mem_cons_self ..
  · rcases s.server.setConn_conn out.conn (c := m.hdr.pconn) (d := d) with ⟨rfl, -⟩ | ⟨-, he⟩
    · exact .inl hidle
    · exact .inr (congrArg Conn.throwSendCnt he)

/-- A completion that finds messages of its connection on one side of the iterator only. -/
theorem OrderInv.writable {s s' : SendSys b} (h : OrderInv s) {c : ConnId} {rs : List SendRet}
    (hok : OrderOk s (.writable c rs)) (hinv : s'.Inv) (hs : s.writable c rs = some s') :
    OrderInv s' := by
  unfold SendSys.writable at hs
  split at hs
  · obtain rfl := (Option.some.inj hs).symm
    exact h.frame hinv rfl rfl rfl h.walk
  · simp only [Option.map_eq_some_iff] at hs
    obtain ⟨out, hout, rfl⟩ := hs
    obtain ⟨-, hkeep, howner⟩ := sendMsgHandler_owner hout
    refine h.frame hinv rfl rfl rfl fun d hidle x hx y hy hdx hdy => ?_
    have hcur : ((s.server.setConn c out.conn).pool.conn d).curSeq = (s.conn d).curSeq :=
      Server.setConn_curSeq hkeep d
    have hdx' : s.Current d x := by unfold SendSys.Current; rw [← hcur]; exact hdx
    have hdy' : s.Current d y := by unfold SendSys.Current; rw [← hcur]; exact hdy
    have hidle : ((s.server.setConn c out.conn).pool.conn d).throwSendCnt ≤ 0 := hidle
    rcases s.server.setConn_conn out.conn (c := c) (d := d) with ⟨rfl, he⟩ | ⟨-, he⟩
    · rcases howner with ⟨hdone, -⟩ | ⟨hsame, -⟩
      · exact hok.1 _ rfl hdone ⟨x, hx, hdx'⟩ ⟨y, hy, hdy'⟩
      · rw [he, hsame] at hidle
        exact h.walk d hidle x hx y hy hdx' hdy'
    · rw [he] at hidle
      exact h.walk d hidle x hx y hy hdx' hdy'

/-- A step that meets the condition keeps the order. -/
theorem SendSys.step_order (s : SendSys b) (act : SendAct b) (s' : SendSys b) (h : OrderInv s)
    (hok : OrderOk s act) (hs : s.step act = some s') : OrderInv s' := by
  have hinv := SendSys.step_inv s act s' h.inv hs
  unfold SendSys.step at hs
  split at hs
  case isTrue => simp at hs
  case isFalse hdef =>
  cases act with
  | server a =>
    simp only [Option.map_eq_some_iff] at hs
    obtain ⟨sv, hsv, rfl⟩ := hs
    exact h.server_step hsv hinv
  | capture c =>
    simp only [Option.ite_none_right_eq_some, Option.some.injEq] at hs
    obtain ⟨-, rfl⟩ := hs
    exact h.frame hinv rfl rfl rfl h.walk
  | sendMsg m =>
    simp only [Option.ite_none_right_eq_some, Option.some.injEq] at hs
    obtain ⟨hm, rfl⟩ := hs
    exact h.push hinv hok
  | wake =>
    simp only [Option.ite_none_right_eq_some, Option.some.injEq] at hs
    obtain ⟨-, rfl⟩ := hs
    refine h.frame hinv rfl rfl rfl fun c _ x hx => ?_
    -- a walk starts with nothing behind it
    simp only [SendSys.wake] at hx
    split at hx
    · have := mem_before_iterAt hx
      simp at this
    · cases hx
  | sendLoop rs =>
    obtain ⟨-, rfl⟩ | ⟨i, a, m, hit, ha, hm, hcase⟩ := SendSys.sendLoop_cases hs
    · exact h.frame hinv rfl rfl rfl fun c _ x hx => nomatch hx
    · rcases hcase with ⟨-, rfl⟩ | ⟨-, rfl⟩ | ⟨-, hbusy, rfl⟩ | ⟨hseq, hidle, hsend⟩
      · exact h.frame hinv rfl rfl rfl h.walk
      · exact h.erase hinv hit ha rfl rfl rfl (.inl rfl) (fun _ => rfl) fun _ => .inr rfl
      · exact h.skipBusy hit ha hm hbusy hinv
      · have hcur := hok.2.2 nofun m (SendSys.visited_eq hit ha hm) hseq
        exact h.sendOne hit ha hm hcur hidle hinv hsend
  | writable c rs =>
    simp only [Option.ite_none_right_eq_some] at hs
    exact h.writable hok hinv hs.2

theorem SendSys.start_order (b : Build) (wait : Int) (nows : List Int) :
    OrderInv (SendSys.start b wait nows) := by
  refine ⟨SendSys.start_inv b wait nows, List.Pairwise.nil, fun a ha => ?_,
    fun x hx => (nomatch hx), List.Pairwise.nil, fun _ _ x hx => (nomatch hx)⟩
  rcases ha with ha | ha <;> cases ha

/-- **The order of sending.** In a run in which the write handler completes no message while the walk
of the send thread has messages of that client on both sides, and no message is pushed into a walk
that has passed one of a client that is no longer busy, the messages queued for one client are
started in the order in which they were pushed. -/
theorem send_order (b : Build) (wait : Int) (nows : List Int) (acts : List (SendAct b))
    (s : SendSys b) (hrun : run SendSys.step (SendSys.start b wait nows) acts = some s)
    (hok : Meets SendSys.step OrderOk (SendSys.start b wait nows) acts) : s.InOrder :=
  (run_invariant SendSys.step_order acts _ s (SendSys.start_order b wait nows) hok hrun).order

instance (c : Conn) (rs : List SendRet) : Decidable (completes c rs) :=
  decidable_of_iff (∃ n ∈ sendUninterrupt c.restSendSize rs,
    (n = c.restSendSize ∨ n = 0 ∨ n < -1)) Iff.rfl

instance (s : SendSys b) (act : SendAct b) : Decidable (OrderOk s act) :=
  inferInstanceAs (Decidable ((∀ w ∈ act.handled, _ → (∃ x ∈ _, _) → ¬ ∃ y ∈ _, _) ∧
    (∀ m ∈ act.pushed, _ → _ → ∀ x ∈ _, ¬ _) ∧ (act.turn ≠ none → ∀ m ∈ s.visited, _ → _)))

instance (s : SendSys b) : Decidable s.InOrder :=
  inferInstanceAs (Decidable (List.Pairwise _ _))

/-- A client with three replies: the first is sent in two parts, and completed between two walks. -/
def threeReplies : List (SendAct .tcp) :=
  [.server (.accept 5 0), .capture 0, .sendMsg (pingReplyTo 0 2), .wake, .sendLoop [.sent 3],
    .sendLoop [], .sendMsg (pingReplyTo 0 2), .sendMsg (pingReplyTo 0 2), .wake, .sendLoop [],
    .sendLoop [], .sendLoop [], .writable 0 [.sent 5], .wake, .sendLoop [.sent 8],
    .sendLoop [.sent 8]]

theorem send_order_threeReplies : ∃ s, run SendSys.step (SendSys.start .tcp 80 [0]) threeReplies =
    some s ∧ s.started = [0, 1, 2] ∧ s.InOrder :=
  ⟨_, rfl, rfl, send_order .tcp 80 [0] threeReplies _ rfl (by decide)⟩

/-- The same, but the first reply is completed while the walk is between the other two. -/
def overtaken : List (SendAct .tcp) :=
  [.server (.accept 5 0), .capture 0, .sendMsg (pingReplyTo 0 2), .wake, .sendLoop [.sent 3],
    .sendLoop [], .sendMsg (pingReplyTo 0 2), .sendMsg (pingReplyTo 0 2), .wake, .sendLoop [],
    .writable 0 [.sent 5], .sendLoop [.sent 8], .sendLoop [], .wake, .sendLoop [.sent 8]]

/-- The third reply starts before the second. -/
theorem send_out_of_order : ∃ s, run SendSys.step (SendSys.start .tcp 80 [0]) overtaken = some s ∧
    s.started = [0, 2, 1] ∧ ¬ s.InOrder :=
  ⟨_, rfl, rfl, by decide⟩

end Mgx
