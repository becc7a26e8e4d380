import Mgx.Lib.Crew
import Mgx.SendThreads

/-
  No reply is stranded.

  The send thread sleeps until the semaphore is posted, and then walks the whole
  list. It passes over a message whose connection is busy, so it has to be woken
  once more when the connection is free again. `send_msg_handler` posts for that,
  but before it clears the busy flag.

  Correspondence (C++ ↔ Lean): that of `SendThreads`.

  What is proved: `no_reply_stranded`. A message for an open connection that is
  free is always one that the send thread will still come to, as long as the send
  thread passes over no message of a connection for which `send_msg_handler` is
  between its `sem_post` and its `throw_send_cnt = 0`. It can do that:
  `reply_stranded`.
-/
namespace Mgx
open Runs

variable {b : Build}

/-- The message is for an open connection in its present occupancy. -/
def Server.Live (s : Server) (m : SendBuf b) : Prop :=
  s.InUse m.hdr.pconn ∧ seqEq (s.pool.conn m.hdr.pconn).curSeq m.hdr.curSeq = true

instance (s : Server) (m : SendBuf b) : Decidable (s.Live m) :=
  inferInstanceAs (Decidable (_ ∈ _ ∧ _))

/-- The message at position `j` of the list. -/
def SendThreads.msgAt (s : SendThreads b) (j : Nat) : Option (SendBuf b) :=
  s.sendList[j]?.bind (s.given[·]?)

/-- The send thread is blocked and nobody is about to wake it, and there is a message it could send:
its connection is open, in the occupancy of the message, and not busy. -/
def SendThreads.Stranded (s : SendThreads b) : Prop :=
  s.sendTh = .waiting ∧ s.sendQueueSem = 0 ∧ (∀ p ∈ s.senders, p = .idle) ∧ s.handler = .idle ∧
    ∃ j m, s.msgAt j = some m ∧ s.server.Live m ∧ (s.conn m.hdr.pconn).throwSendCnt = 0

/-- The connection whose busy flag the send thread is about to test. -/
def SendThAt.tests : SendThAt → Option ConnId
  | .checking _ c => some c
  | _ => none

/-- A step of the server. -/
def SendThAct.ofServer : SendThAct b → Option ServerAct
  | .server a => some a
  | _ => none

/-- The send thread does not find a connection busy for which `send_msg_handler` has posted and not
yet cleared the flag; and no step of the server makes `m_cur_seq` of a connection come round to the
number of a message in the list. -/
def WakeOk (s : SendThreads b) (act : SendThAct b) : Prop :=
  (act.ofSendTh = true → ∀ c ∈ s.sendTh.tests, (s.conn c).throwSendCnt > 0 →
    s.handler ≠ .clearing c) ∧
  ∀ a ∈ act.ofServer, ∀ server ∈ s.server.step a, ∀ x ∈ s.sendList, ∀ m ∈ s.given[x]?,
    server.Live m → s.server.Live m

instance (s : SendThreads b) (act : SendThAct b) : Decidable (WakeOk s act) :=
  inferInstanceAs (Decidable ((act.ofSendTh = true → ∀ c ∈ s.sendTh.tests, _) ∧
    ∀ a ∈ act.ofServer, ∀ server ∈ s.server.step a, _))

/-! ## Who will come to a message -/

/-- The walk will still come to position `j`. -/
def SendThAt.reaches (j : Nat) : SendThAt → Prop
  | .waiting => False
  | .woken => True
  | .starting => True
  | .testing it => ∃ i ∈ it, i ≤ j
  | .entering i => i ≤ j
  | .reading i => i ≤ j
  | .dropping i => i ≤ j
  | .erasing i => i ≤ j
  | .checking i _ => i ≤ j
  | .skipping i => i < j
  | .installing i _ => i ≤ j
  | .taking i _ => i ≤ j
  | .counting _ it => ∃ i ∈ it, i ≤ j
  | .sending _ it => ∃ i ∈ it, i ≤ j
  | .leaving it => ∃ i ∈ it, i ≤ j

/-- How far `m_send_list_cnt` is behind the list, by what the send thread is doing. -/
def SendThAt.debt : SendThAt → Int
  | .erasing _ => 1
  | .counting .. => -1
  | _ => 0

/-- The connection the send thread is sending on. -/
def SendThAt.sendsOn : SendThAt → Option ConnId
  | .installing _ c => some c
  | .taking _ c => some c
  | .counting c _ => some c
  | .sending c _ => some c
  | _ => none

/-- The thread has pushed and not yet incremented the counter. -/
def SenderAt.uncounted : SenderAt b → Bool
  | .pushed => true
  | _ => false

/-- The thread is between its push and its `sem_post`. -/
def SenderAt.owesPost : SenderAt b → Bool
  | .pushed | .counted => true
  | _ => false

theorem SenderAt.owesPost_of_uncounted {p : SenderAt b} (h : p.uncounted = true) :
    p.owesPost = true := by
  cases p with
  | pushed => rfl
  | idle => cases h
  | calling _ => cases h
  | locked _ => cases h
  | counted => cases h
  | posted => cases h

/-- The send thread is going to be woken: there is a token, or somebody is about to post one. -/
def SendThreads.WillWake (s : SendThreads b) : Prop :=
  0 < s.sendQueueSem ∨ (∃ p ∈ s.senders, p.owesPost = true) ∨ ∃ c, s.handler = .posting c

/-- The send thread comes to position `j`, now or when it is woken. -/
def SendThreads.Covered (s : SendThreads b) (j : Nat) : Prop := s.WillWake ∨ s.sendTh.reaches j

/-- The connection is busy, and whoever clears the flag has yet to post. -/
def SendThreads.Awaited (s : SendThreads b) (c : ConnId) : Prop :=
  (s.conn c).throwSendCnt > 0 ∧ s.handler ≠ .clearing c

/-- The counter counts but for what is in progress; the send thread tests the flag of the connection
of the message `it` points to, and sends on a connection that is not busy; and it will come to every
message of an open connection, or that connection is busy. -/
structure SendThreads.WakeInv (s : SendThreads b) : Prop where
  server : s.server.Inv
  cnt : s.sendListCnt + s.senders.countP SenderAt.uncounted + s.sendTh.debt = s.sendList.length
  tests : ∀ i c, s.sendTh = .checking i c → ∃ m, s.msgAt i = some m ∧ m.hdr.pconn = c
  idle : ∀ c ∈ s.sendTh.sendsOn, (s.conn c).throwSendCnt ≤ 0
  covered : ∀ j m, s.msgAt j = some m → s.server.Live m → s.Covered j ∨ s.Awaited m.hdr.pconn

/-- A stranded reply is not covered. -/
theorem SendThreads.WakeInv.not_stranded {s : SendThreads b} (h : s.WakeInv) : ¬ s.Stranded := by
  rintro ⟨hth, hsem, hsenders, hhandler, j, m, hm, hlive, hidle⟩
  rcases h.covered j m hm hlive with ((hpos | ⟨p, hp, howes⟩ | ⟨c, hc⟩) | hreach) | hbusy
  · omega
  · rw [hsenders p hp] at howes
    cases howes
  · rw [hhandler] at hc
    cases hc
  · rw [hth] at hreach
    exact hreach
  · have := hbusy.1
    omega

/-! ## Messages and places -/

/-- What reaches the iterator at position `i` reaches the messages from there on. -/
theorem reaches_listIter {i j n : Nat} (hi : i ≤ j) (hj : j < n) : ∃ k ∈ listIter i n, k ≤ j :=
  ⟨i, if_pos (by omega), hi⟩

theorem SendThreads.msgAt_lt {s : SendThreads b} {j : Nat} {m : SendBuf b}
    (h : s.msgAt j = some m) : j < s.sendList.length := by
  obtain ⟨a, ha, -⟩ := Option.bind_eq_some_iff.mp h
  exact (List.getElem?_eq_some_iff.mp ha).1

/-- A message is pushed. -/
theorem SendThreads.msgAt_push {s s' : SendThreads b} {m : SendBuf b}
    (hlist : s'.sendList = s.sendList ++ [s.given.length]) (hgiven : s'.given = s.given ++ [m])
    {j : Nat} (hj : j < s.sendList.length) {x : SendBuf b} (hx : s.msgAt j = some x) :
    s'.msgAt j = some x := by
  obtain ⟨a, ha, hx⟩ := Option.bind_eq_some_iff.mp hx
  unfold msgAt
  rw [hlist, hgiven, List.getElem?_append_left hj, ha, Option.bind_some,
    List.getElem?_append_left (List.getElem?_eq_some_iff.mp hx).1, hx]

/-- A connection object is replaced by one with the same sequence number. -/
theorem Server.live_setConn {s : Server} {c : ConnId} {x : Conn}
    (hseq : x.curSeq = (s.pool.conn c).curSeq) (m : SendBuf b) :
    (s.setConn c x).Live m ↔ s.Live m := by
  unfold Live
  rw [Server.setConn_curSeq hseq m.hdr.pconn]
  rfl

/-! ## The send thread -/

/-- The send thread moves, over the same list and the same connections. -/
theorem SendThreads.WakeInv.sendTh_move {s : SendThreads b} (h : s.WakeInv) {w w' : SendThAt}
    (hw : s.sendTh = w) (mutex : Option SendHolder) {n : Int}
    (hcnt : n + w'.debt = s.sendListCnt + w.debt)
    (htests : ∀ i c, w' = .checking i c → ∃ m, s.msgAt i = some m ∧ m.hdr.pconn = c)
    (hidle : ∀ c ∈ w'.sendsOn, (s.conn c).throwSendCnt ≤ 0)
    (hreach : ∀ j m, s.msgAt j = some m → w.reaches j →
      s.WillWake ∨ w'.reaches j ∨ s.Awaited m.hdr.pconn) :
    ({ s with sendTh := w', mutex := mutex, sendListCnt := n } : SendThreads b).WakeInv := by
  refine ⟨h.server, ?_, htests, hidle, fun j m hm hlive => ?_⟩
  · have hold := h.cnt
    rw [hw] at hold
    show n + s.senders.countP SenderAt.uncounted + w'.debt = s.sendList.length
    omega
  · rcases h.covered j m hm hlive with (hwake | hreached) | hbusy
    · exact .inl (.inl hwake)
    · rcases hreach j m hm (hw ▸ hreached) with hwake | hreach | hbusy
      · exact .inl (.inl hwake)
      · exact .inl (.inr hreach)
      · exact .inr hbusy
    · exact .inr hbusy

/-- The send thread moves and has no other connection at hand; what it was to come to it still
is. -/
theorem SendThreads.WakeInv.sendTh_pass {s : SendThreads b} (h : s.WakeInv) {w w' : SendThAt}
    (hw : s.sendTh = w) (mutex : Option SendHolder) {n : Int}
    (hcnt : n + w'.debt = s.sendListCnt + w.debt) (htests : w'.tests = none)
    (hsends : w'.sendsOn = none ∨ w'.sendsOn = w.sendsOn)
    (hreach : ∀ j, j < s.sendList.length → w.reaches j → w'.reaches j) :
    ({ s with sendTh := w', mutex := mutex, sendListCnt := n } : SendThreads b).WakeInv := by
  refine h.sendTh_move hw mutex hcnt ?_ ?_ ?_
  · rintro i c rfl
    cases htests
  · intro c hc
    rcases hsends with hnone | hsame
    · rw [hnone] at hc
      cases hc
    · exact h.idle c (hw ▸ hsame ▸ hc)
  · intro j m hm hreached
    exact .inr (.inl (hreach j (msgAt_lt hm) hreached))

/-- The send thread wakes up. -/
theorem SendThreads.WakeInv.sendTh_woken {s : SendThreads b} (h : s.WakeInv)
    (hth : s.sendTh = .waiting) (n : Nat) :
    ({ s with sendTh := .woken, sendQueueSem := n } : SendThreads b).WakeInv := by
  have hcnt := h.cnt
  rw [hth] at hcnt
  refine ⟨h.server, hcnt, fun i c hc => ?_, fun c hc => ?_, fun j m _ _ => ?_⟩
  · cases hc
  · cases hc
  · exact .inl (.inr trivial)

/-- The send thread erases the element it is at, and goes on from there. -/
theorem SendThreads.WakeInv.sendTh_erase {s : SendThreads b} (h : s.WakeInv) {w w' : SendThAt}
    (hw : s.sendTh = w) {i : Nat} (hi : i < s.sendList.length) (dels : List Addr) (undef : Bool)
    (hcnt : w'.debt + 1 = w.debt) (htests : w'.tests = none)
    (hsends : w'.sendsOn = none ∨ w'.sendsOn = w.sendsOn) (hat : ∀ j, w.reaches j → i ≤ j)
    (hreach : ∀ j, i ≤ j → j < (s.sendList.eraseIdx i).length → w'.reaches j) :
    ({ s with
      sendTh := w'
      sendList := s.sendList.eraseIdx i
      deleted := dels
      undef := undef } : SendThreads b).WakeInv := by
  have hlen := List.length_eraseIdx_of_lt hi
  refine ⟨h.server, ?_, fun k c hk => ?_, fun c hc => ?_, fun j m hm hlive => ?_⟩
  · have hold := h.cnt
    rw [hw] at hold
    show s.sendListCnt + s.senders.countP SenderAt.uncounted + w'.debt =
      (s.sendList.eraseIdx i).length
    omega
  · have hk : w' = .checking k c := hk
    rw [hk] at htests
    cases htests
  · rcases hsends with hnone | hsame
    · have hc : c ∈ w'.sendsOn := hc
      rw [hnone] at hc
      cases hc
    · exact h.idle c (hw ▸ hsame ▸ hc)
  · by_cases hlt : j < i
    · -- behind the walk, and still there
      have hm : s.msgAt j = some m := by
        unfold msgAt at hm ⊢
        rwa [List.getElem?_eraseIdx_of_lt hlt] at hm
      rcases h.covered j m hm hlive with (hwake | hreached) | hbusy
      · exact .inl (.inl hwake)
      · exact absurd (hat j (hw ▸ hreached)) (Nat.not_le.mpr hlt)
      · exact .inr hbusy
    · exact .inl (.inr (hreach j (Nat.not_lt.mp hlt) (msgAt_lt hm)))

/-- The send thread changes the connection it sends on, which is not busy. -/
theorem SendThreads.WakeInv.sendTh_conn {s : SendThreads b} (h : s.WakeInv) {w w' : SendThAt}
    (hw : s.sendTh = w) {c : ConnId} (hc : (s.conn c).throwSendCnt ≤ 0) (x : Conn)
    (hfd : x.fd = (s.conn c).fd) (hseq : x.curSeq = (s.conn c).curSeq) (dels : List Addr)
    (hdebt : w'.debt = w.debt) (htests : w'.tests = none)
    (hidle : ∀ d ∈ w'.sendsOn, d = c ∧ x.throwSendCnt ≤ 0)
    (hreach : ∀ j, w.reaches j → w'.reaches j) :
    ({ s with
      sendTh := w'
      server := s.server.setConn c x
      deleted := dels } : SendThreads b).WakeInv := by
  refine ⟨Server.setConn_inv h.server hfd, ?_, fun k d hk => ?_, fun d hd => ?_,
    fun j m hm hlive => ?_⟩
  · have hold := h.cnt
    rw [hw, ← hdebt] at hold
    exact hold
  · have hk : w' = .checking k d := hk
    rw [hk] at htests
    cases htests
  · obtain ⟨rfl, hx⟩ := hidle d hd
    show ((s.server.pool.setConn d x).conn d).throwSendCnt ≤ 0
    rw [Pool.setConn_self]
    exact hx
  · -- `c` is not busy, so a message that awaits its connection is for another
    have hcov : s.Covered j ∨ m.hdr.pconn ≠ c ∧ s.Awaited m.hdr.pconn := by
      rcases h.covered j m hm ((Server.live_setConn hseq m).mp hlive) with hcov | hbusy
      · exact .inl hcov
      · refine .inr ⟨fun he => ?_, hbusy⟩
        have := hbusy.1
        rw [he] at this
        omega
    rcases hcov with (hwake | hreached) | ⟨hne, hbusy⟩
    · exact .inl (.inl hwake)
    · exact .inl (.inr (hreach j (hw ▸ hreached)))
    · refine .inr ⟨?_, hbusy.2⟩
      show ((s.server.pool.setConn c x).conn m.hdr.pconn).throwSendCnt > 0
      rw [Pool.setConn_other _ _ _ hne]
      exact hbusy.1

/-- `send` and what follows it keep the descriptor and the sequence number. -/
theorem sendAttempt_conn {c : Conn} {rs : List SendRet} {out : SendOut}
    (h : sendAttempt c rs = some out) : out.conn.fd = c.fd ∧ out.conn.curSeq = c.curSeq := by
  obtain ⟨n, -, rfl⟩ := Option.map_eq_some_iff.mp h
  dsimp only
  split
  · split
    · exact ⟨rfl, rfl⟩
    · exact ⟨rfl, rfl⟩
  · split
    · exact ⟨rfl, rfl⟩
    · split
      · exact ⟨rfl, rfl⟩
      · exact ⟨rfl, rfl⟩

/-- The test of `m_send_list_cnt` fails only if the list is empty, or somebody has pushed and is yet
to post. -/
theorem SendThreads.WakeInv.test_cnt {s : SendThreads b} (h : s.WakeInv) (hw : s.sendTh = .woken) :
    ({ s with sendTh := if s.sendListCnt > 0 then .starting else .waiting } :
      SendThreads b).WakeInv := by
  by_cases hpos : s.sendListCnt > 0
  · rw [if_pos hpos]
    exact h.sendTh_pass hw s.mutex rfl rfl (.inl rfl) fun _ _ _ => trivial
  · rw [if_neg hpos]
    refine h.sendTh_move hw s.mutex rfl ?_ ?_ ?_
    · intro i c hc
      cases hc
    · intro c hc
      cases hc
    · intro j m hm _
      -- the list is not empty, so the counter is behind
      have hcnt := h.cnt
      have hlt := msgAt_lt hm
      rw [hw] at hcnt
      simp only [SendThAt.debt] at hcnt
      have hcount : 0 < s.senders.countP SenderAt.uncounted := by omega
      obtain ⟨p, hp, hpushed⟩ := List.countP_pos_iff.mp hcount
      exact .inl (.inr (.inl ⟨p, hp, SenderAt.owesPost_of_uncounted hpushed⟩))

/-- The test of `throw_send_cnt`: a message that is passed over waits for the handler to post. -/
theorem SendThreads.WakeInv.test_busy {s : SendThreads b} (h : s.WakeInv) {i : Nat} {c : ConnId}
    (hw : s.sendTh = .checking i c)
    (hok : (s.conn c).throwSendCnt > 0 → s.handler ≠ .clearing c) :
    ({ s with sendTh := if (s.conn c).throwSendCnt > 0 then .skipping i else .installing i c } :
      SendThreads b).WakeInv := by
  by_cases hbusy : (s.conn c).throwSendCnt > 0
  · rw [if_pos hbusy]
    refine h.sendTh_move hw s.mutex rfl ?_ ?_ ?_
    · intro k d hd
      cases hd
    · intro d hd
      cases hd
    · intro j m hm hreach
      by_cases hj : i = j
      · -- the message `it` points to: its connection is the one tested
        obtain ⟨m', hm', hc⟩ := h.tests i c hw
        obtain rfl : m = m' := Option.some.inj (hm.symm.trans (hj ▸ hm'))
        exact .inr (.inr (hc ▸ ⟨hbusy, hok hbusy⟩))
      · exact .inr (.inl (lt_of_le_of_ne hreach hj))
  · rw [if_neg hbusy]
    refine h.sendTh_move hw s.mutex rfl ?_ ?_ fun j m _ hreach => .inr (.inl hreach)
    · intro k d hd
      cases hd
    · intro d hd
      obtain rfl := Option.some.inj hd
      omega

/-- The test of `m_cur_seq`. -/
theorem SendThreads.WakeInv.test_seq {s s' : SendThreads b} {rs : List SendRet} {i : Nat}
    (h : s.WakeInv) (hw : s.sendTh = .reading i) (hs : s.sendThStep rs (.reading i) = some s') :
    s'.WakeInv := by
  obtain ⟨a, ha, hs⟩ := Option.bind_eq_some_iff.mp hs
  obtain ⟨m, hm, hs⟩ := Option.bind_eq_some_iff.mp hs
  have hat : s.msgAt i = some m := by
    unfold msgAt
    rw [ha, Option.bind_some, hm]
  split at hs
  · obtain rfl := (Option.some.inj hs).symm
    exact ⟨h.server, h.cnt, h.tests, h.idle, h.covered⟩
  · split at hs
    · obtain rfl := (Option.some.inj hs).symm
      exact h.sendTh_pass hw _ rfl rfl (.inl rfl) fun _ _ hreach => hreach
    · obtain rfl := (Option.some.inj hs).symm
      refine h.sendTh_move hw _ rfl ?_ ?_ fun j _ _ hreach => .inr (.inl hreach)
      · intro k c hc
        cases hc
        exact ⟨m, hat, rfl⟩
      · intro c hc
        cases hc

/-- The test for `end()`: there is nothing left to come to, or the message at `it`. -/
theorem SendThreads.WakeInv.test_end {s s' : SendThreads b} {rs : List SendRet} {it : Option Nat}
    (h : s.WakeInv) (hw : s.sendTh = .testing it) (hs : s.sendThStep rs (.testing it) = some s') :
    s'.WakeInv := by
  cases it with
  | none =>
    obtain rfl := (Option.some.inj hs).symm
    refine h.sendTh_pass hw _ rfl rfl (.inl rfl) fun j _ hreach => ?_
    obtain ⟨i, hi, -⟩ := hreach
    cases hi
  | some i =>
    obtain rfl := (Option.some.inj hs).symm
    refine h.sendTh_pass hw _ rfl rfl (.inl rfl) fun j _ hreach => ?_
    obtain ⟨k, hk, hle⟩ := hreach
    obtain rfl := Option.some.inj hk
    exact hle

/-- The message is set up on its connection. -/
theorem SendThreads.WakeInv.install {s s' : SendThreads b} {rs : List SendRet} {i : Nat}
    {c : ConnId} (h : s.WakeInv) (hw : s.sendTh = .installing i c)
    (hs : s.sendThStep rs (.installing i c) = some s') : s'.WakeInv := by
  have hidle := h.idle c (by rw [hw]; rfl)
  obtain ⟨a, ha, hs⟩ := Option.bind_eq_some_iff.mp hs
  obtain ⟨m, hm, hs⟩ := Option.bind_eq_some_iff.mp hs
  obtain rfl := (Option.some.inj hs).symm
  refine h.sendTh_conn hw hidle (Conn.install b a m.body (s.conn c)) rfl rfl _ rfl rfl ?_
    fun _ hreach => hreach
  intro d hd
  obtain rfl := Option.some.inj hd
  exact ⟨rfl, hidle⟩

/-- The first attempt to send. -/
theorem SendThreads.WakeInv.send {s s' : SendThreads b} {rs : List SendRet} {it : Option Nat}
    {c : ConnId} (h : s.WakeInv) (hw : s.sendTh = .sending c it)
    (hs : s.sendThStep rs (.sending c it) = some s') : s'.WakeInv := by
  obtain ⟨out, hout, rfl⟩ := Option.map_eq_some_iff.mp hs
  obtain ⟨hfd, hseq⟩ := sendAttempt_conn hout
  refine h.sendTh_conn hw (h.idle c (by rw [hw]; rfl)) out.conn hfd hseq _ rfl rfl ?_
    fun _ hreach => hreach
  intro d hd
  cases hd

/-- A statement of the send thread keeps the invariant. -/
theorem SendThreads.sendThStep_inv {s s' : SendThreads b} {rs : List SendRet} {w : SendThAt}
    (h : s.WakeInv) (hw : s.sendTh = w)
    (hok : ∀ c ∈ w.tests, (s.conn c).throwSendCnt > 0 → s.handler ≠ .clearing c)
    (hs : s.sendThStep rs w = some s') : s'.WakeInv := by
  cases w with
  | waiting =>
    simp only [sendThStep, Option.ite_none_right_eq_some, Option.some.injEq] at hs
    obtain ⟨-, rfl⟩ := hs
    exact h.sendTh_woken hw _
  | woken =>
    obtain rfl := (Option.some.inj hs).symm
    exact h.test_cnt hw
  | starting =>
    obtain rfl := (Option.some.inj hs).symm
    exact h.sendTh_pass hw _ rfl rfl (.inl rfl) fun j hj _ => reaches_listIter (Nat.zero_le j) hj
  | testing it => exact h.test_end hw hs
  | entering i =>
    simp only [sendThStep, Option.ite_none_right_eq_some, Option.some.injEq] at hs
    obtain ⟨-, rfl⟩ := hs
    exact h.sendTh_pass hw _ rfl rfl (.inl rfl) fun _ _ hreach => hreach
  | reading i => exact h.test_seq hw hs
  | dropping i =>
    obtain rfl := (Option.some.inj hs).symm
    have hcnt : s.sendListCnt - 1 + 1 = s.sendListCnt + 0 := by omega
    exact h.sendTh_pass hw _ hcnt rfl (.inl rfl) fun _ _ hreach => hreach
  | erasing i =>
    simp only [sendThStep, Option.ite_none_right_eq_some, Option.some.injEq] at hs
    obtain ⟨hi, rfl⟩ := hs
    refine h.sendTh_erase hw hi _ _ rfl rfl (.inl rfl) (fun _ hreach => hreach) ?_
    intro j hj hlt
    exact reaches_listIter hj hlt
  | checking i c =>
    obtain rfl := (Option.some.inj hs).symm
    exact h.test_busy hw (hok c rfl)
  | skipping i =>
    obtain rfl := (Option.some.inj hs).symm
    exact h.sendTh_pass hw _ rfl rfl (.inl rfl) fun j hj hreach => reaches_listIter hreach hj
  | installing i c => exact h.install hw hs
  | taking i c =>
    simp only [sendThStep, Option.ite_none_right_eq_some, Option.some.injEq] at hs
    obtain ⟨hi, rfl⟩ := hs
    refine h.sendTh_erase hw hi _ _ rfl rfl (.inr rfl) (fun _ hreach => hreach) ?_
    intro j hj hlt
    exact reaches_listIter hj hlt
  | counting c it =>
    obtain rfl := (Option.some.inj hs).symm
    have hcnt : s.sendListCnt - 1 + 0 = s.sendListCnt + -1 := by omega
    exact h.sendTh_pass hw _ hcnt rfl (.inr rfl) fun _ _ hreach => hreach
  | sending c it => exact h.send hw hs
  | leaving it =>
    obtain rfl := (Option.some.inj hs).symm
    exact h.sendTh_pass hw _ rfl rfl (.inl rfl) fun _ _ hreach => hreach

/-! ## The other threads -/

/-- Thread `j` moves and posts nothing for a message of its own. -/
theorem SendThreads.WakeInv.sender_pass {s : SendThreads b} (h : s.WakeInv) {j : Nat}
    {p p' : SenderAt b} (hp : s.senders[j]? = some p) (mutex : Option SendHolder)
    (howes : p.owesPost = false) (hsame : p'.uncounted = p.uncounted) :
    ({ s.setSender j p' with mutex := mutex } : SendThreads b).WakeInv := by
  refine ⟨h.server, ?_, h.tests, h.idle, fun k m hm hlive => ?_⟩
  · have hcount := Crew.countP_move (q := p') SenderAt.uncounted hp
    have hcnt := h.cnt
    rw [hsame] at hcount
    show s.sendListCnt + (s.senders.set j p').countP SenderAt.uncounted + s.sendTh.debt =
      s.sendList.length
    omega
  · rcases h.covered k m hm hlive with ((hsem | ⟨q, hq, hqowes⟩ | hhandler) | hreach) | hbusy
    · exact .inl (.inl (.inl hsem))
    · -- another thread, which stays where it is
      obtain ⟨l, hl⟩ := List.mem_iff_getElem?.mp hq
      have hne : l ≠ j := by
        rintro rfl
        obtain rfl := Option.some.inj (hp.symm.trans hl)
        rw [howes] at hqowes
        cases hqowes
      have hl' : (s.senders.set j p')[l]? = some q := (Crew.getElem?_move hp).mpr (.inr ⟨hne, hl⟩)
      exact .inl (.inl (.inr (.inl ⟨q, List.mem_of_getElem? hl', hqowes⟩)))
    · exact .inl (.inl (.inr (.inr hhandler)))
    · exact .inl (.inr hreach)
    · exact .inr hbusy

/-- A statement of a thread in `send_msg` keeps the invariant. -/
theorem SendThreads.senderStep_inv {s s' : SendThreads b} {j : Nat} {p : SenderAt b}
    (h : s.WakeInv) (hp : s.senders[j]? = some p) (hs : s.senderStep j p = some s') :
    s'.WakeInv := by
  obtain ⟨hj, -⟩ := List.getElem?_eq_some_iff.mp hp
  have hcnt := h.cnt
  cases p with
  | idle => simp [senderStep] at hs
  | calling m =>
    simp only [senderStep, Option.ite_none_right_eq_some, Option.some.injEq] at hs
    obtain ⟨-, rfl⟩ := hs
    exact h.sender_pass hp _ rfl rfl
  | locked m =>
    simp only [senderStep, Option.some.injEq] at hs
    subst hs
    have hcount := Crew.countP_move (q := .pushed) SenderAt.uncounted hp
    simp only [SenderAt.uncounted, Bool.false_eq_true, if_false, if_true] at hcount
    refine ⟨h.server, ?_, fun i c hc => ?_, h.idle, fun k x _ _ => ?_⟩
    · show s.sendListCnt + (s.senders.set j .pushed).countP SenderAt.uncounted + s.sendTh.debt =
        (s.sendList ++ [s.given.length]).length
      rw [List.length_append, List.length_singleton]
      omega
    · obtain ⟨x, hx, hxc⟩ := h.tests i c hc
      exact ⟨x, msgAt_push rfl rfl (msgAt_lt hx) hx, hxc⟩
    · exact .inl (.inl (.inr (.inl ⟨.pushed, List.mem_set hj _, rfl⟩)))
  | pushed =>
    simp only [senderStep, Option.some.injEq] at hs
    subst hs
    have hcount := Crew.countP_move (q := .counted) SenderAt.uncounted hp
    simp only [SenderAt.uncounted, Bool.false_eq_true, if_false, if_true] at hcount
    refine ⟨h.server, ?_, h.tests, h.idle, fun k x _ _ => ?_⟩
    · show s.sendListCnt + 1 + (s.senders.set j .counted).countP SenderAt.uncounted +
        s.sendTh.debt = s.sendList.length
      omega
    · exact .inl (.inl (.inr (.inl ⟨.counted, List.mem_set hj _, rfl⟩)))
  | counted =>
    simp only [senderStep, Option.some.injEq] at hs
    subst hs
    have hcount := Crew.countP_move (q := .posted) SenderAt.uncounted hp
    simp only [SenderAt.uncounted, Bool.false_eq_true, if_false] at hcount
    refine ⟨h.server, ?_, h.tests, h.idle, fun k x _ _ => ?_⟩
    · show s.sendListCnt + (s.senders.set j .posted).countP SenderAt.uncounted + s.sendTh.debt =
        s.sendList.length
      omega
    · exact .inl (.inl (.inl (Nat.succ_pos _)))
  | posted =>
    simp only [senderStep, Option.some.injEq] at hs
    subst hs
    exact h.sender_pass hp _ rfl rfl

/-- The connections change, and the epoll thread moves. -/
theorem SendThreads.WakeInv.conn_move {s : SendThreads b} (h : s.WakeInv) {server : Server}
    (hinv : server.Inv) (handler : HandlerAt) (dels : List Addr)
    (hposting : ∀ c, s.handler = .posting c → handler = .posting c)
    (hidle : ∀ c, (s.conn c).throwSendCnt ≤ 0 → (server.pool.conn c).throwSendCnt ≤ 0)
    (hlive : ∀ j m, s.msgAt j = some m → server.Live m → s.server.Live m ∧
      (s.Awaited m.hdr.pconn → (server.pool.conn m.hdr.pconn).throwSendCnt > 0 ∧
        handler ≠ .clearing m.hdr.pconn)) :
    ({ s with server := server, handler := handler, deleted := dels } :
      SendThreads b).WakeInv := by
  refine ⟨hinv, h.cnt, h.tests, fun c hc => hidle c (h.idle c hc), fun j m hm hl => ?_⟩
  obtain ⟨hl, hawaited⟩ := hlive j m hm hl
  rcases h.covered j m hm hl with ((hpos | howes | ⟨c, hc⟩) | hreach) | hbusy
  · exact .inl (.inl (.inl hpos))
  · exact .inl (.inl (.inr (.inl howes)))
  · exact .inl (.inl (.inr (.inr ⟨c, hposting c hc⟩)))
  · exact .inl (.inr hreach)
  · exact .inr (hawaited hbusy)

/-- The epoll thread stores the connection it is at with its own descriptor and number. -/
theorem SendThreads.WakeInv.handler_move {s : SendThreads b} (h : s.WakeInv) {c : ConnId}
    (x : Conn) (hfd : x.fd = (s.conn c).fd) (hseq : x.curSeq = (s.conn c).curSeq)
    (handler : HandlerAt) (hposting : ∀ d, s.handler ≠ .posting d)
    (hclearing : ∀ d, handler ≠ .clearing d)
    (hthrow : x.throwSendCnt = (s.conn c).throwSendCnt ∨
      x.throwSendCnt ≤ 0 ∧ s.handler = .clearing c) :
    ({ s with server := s.server.setConn c x, handler := handler } : SendThreads b).WakeInv := by
  have hconn : ∀ d, (d = c ∧ (s.server.setConn c x).pool.conn d = x) ∨
      (d ≠ c ∧ (s.server.setConn c x).pool.conn d = s.conn d) := by
    intro d
    by_cases hd : d = c
    · exact .inl ⟨hd, hd ▸ Pool.setConn_self ..⟩
    · exact .inr ⟨hd, Pool.setConn_other _ _ _ hd⟩
  refine h.conn_move (Server.setConn_inv h.server hfd) handler s.deleted
    (fun d hd => absurd hd (hposting d)) (fun d hd => ?_) (fun j m _ hl => ?_)
  · obtain ⟨rfl, hx⟩ | ⟨-, hx⟩ := hconn d
    · rw [hx]
      omega
    · rwa [hx]
  · refine ⟨(Server.live_setConn hseq m).mp hl, fun hbusy => ⟨?_, hclearing _⟩⟩
    obtain ⟨hd, hx⟩ | ⟨-, hx⟩ := hconn m.hdr.pconn
    · rw [hx]
      rcases hthrow with hthrow | ⟨-, hin⟩
      · rw [hthrow, ← hd]
        exact hbusy.1
      · exact absurd (hd ▸ hin) hbusy.2
    · rw [hx]
      exact hbusy.1

/-- Up to its branch `send_msg_handler` keeps the busy flag. -/
theorem handlerSend_conn {c x : Conn} {rs : List SendRet} {done : Bool}
    (h : handlerSend c rs = some (x, done)) :
    x.fd = c.fd ∧ x.curSeq = c.curSeq ∧ x.throwSendCnt = c.throwSendCnt := by
  obtain ⟨n, -, h⟩ := Option.map_eq_some_iff.mp h
  split at h
  · split at h
    · cases h
      exact ⟨rfl, rfl, rfl⟩
    · cases h
      exact ⟨rfl, rfl, rfl⟩
  · split at h
    · cases h
      exact ⟨rfl, rfl, rfl⟩
    · cases h
      exact ⟨rfl, rfl, rfl⟩

/-- A call of the write handler keeps the invariant. -/
theorem SendThreads.writable_inv {s s' : SendThreads b} {c : ConnId} {rs : List SendRet}
    (h : s.WakeInv) (hidle : s.handler = .idle) (hs : s.writable c rs = some s') : s'.WakeInv := by
  unfold writable at hs
  split at hs
  · obtain rfl := (Option.some.inj hs).symm
    exact ⟨h.server, h.cnt, h.tests, h.idle, h.covered⟩
  · obtain ⟨⟨x, done⟩, hx, rfl⟩ := Option.map_eq_some_iff.mp hs
    obtain ⟨hfd, hseq, hthrow⟩ := handlerSend_conn hx
    refine h.handler_move x hfd hseq _ (by simp [hidle]) (fun d hd => ?_) (.inl hthrow)
    split at hd
    · cases hd
    · cases hd

/-- So does every statement it ends with. -/
theorem SendThreads.handlerStep_inv {s s' : SendThreads b} {w : HandlerAt} (h : s.WakeInv)
    (hw : s.handler = w) (hs : s.handlerStep w = some s') : s'.WakeInv := by
  cases w with
  | idle => simp [handlerStep] at hs
  | posting c =>
    -- from here on there is a token for every message
    simp only [handlerStep, Option.some.injEq] at hs
    subst hs
    exact ⟨h.server, h.cnt, h.tests, h.idle, fun _ _ _ _ => .inl (.inl (.inl (Nat.succ_pos _)))⟩
  | clearing c =>
    simp only [handlerStep, Option.some.injEq] at hs
    subst hs
    exact h.handler_move { s.conn c with throwSendCnt := 0 } rfl rfl (.deleting c) (by simp [hw])
      (by simp) (.inr ⟨Int.le_refl 0, hw⟩)
  | deleting c =>
    simp only [handlerStep] at hs
    split at hs
    · obtain rfl := (Option.some.inj hs).symm
      exact ⟨h.server, h.cnt, h.tests, h.idle, h.covered⟩
    · obtain rfl := (Option.some.inj hs).symm
      exact h.conn_move h.server _ _ (by simp [hw]) (fun d hd => hd)
        (fun j m _ hl => ⟨hl, fun hbusy => ⟨hbusy.1, by simp⟩⟩)
  | nulling c =>
    simp only [handlerStep, Option.some.injEq] at hs
    subst hs
    exact h.handler_move { s.conn c with psendMemAddr := none } rfl rfl .idle (by simp [hw])
      (by simp) (.inl rfl)

/-! ## The server -/

/-- `free_conn` keeps the busy flags. -/
theorem Pool.freeConn_throw (p : Pool) (c d : ConnId) :
    ((p.freeConn c).conn d).throwSendCnt = (p.conn d).throwSendCnt := by
  show ((p.setConn c _).conn d).throwSendCnt = _
  by_cases hd : d = c
  · rw [hd, Pool.setConn_self]
    rfl
  · rw [Pool.setConn_other _ _ _ hd]

/-- `insert_recy_conn_queue` keeps them too. -/
theorem Pool.insertRecy_throw (p : Pool) (c d : ConnId) (now : Int) :
    ((p.insertRecy c now).conn d).throwSendCnt = (p.conn d).throwSendCnt := by
  unfold Pool.insertRecy
  split
  · rfl
  · show ((p.setConn c _).conn d).throwSendCnt = _
    by_cases hd : d = c
    · rw [hd, Pool.setConn_self]
      rfl
    · rw [Pool.setConn_other _ _ _ hd]

/-- `get_conn` clears the flag of the connection it hands out. -/
theorem Pool.getConn_throw {p p' : Pool} {fd now : Int} {c : ConnId}
    (h : p.getConn fd now = some (c, p')) : (p'.conn c).throwSendCnt = 0 := by
  obtain ⟨-, rest, -, rfl⟩ | ⟨-, -, rfl⟩ := Pool.getConn_cases h
  · show ((p.setConn c _).conn c).throwSendCnt = 0
    rw [Pool.setConn_self]
    rfl
  · show ((p.setConn c _).conn c).throwSendCnt = 0
    rw [Pool.setConn_self]
    rfl

theorem accept_throw {s s' : Server} {fd now : Int} {c : ConnId} (h : s.Inv)
    (hs : s.accept fd now = some (c, s')) (d : ConnId) :
    (s'.pool.conn d).throwSendCnt = (s.pool.conn d).throwSendCnt ∨
      (s'.pool.conn d).throwSendCnt = 0 ∧ ¬ s.InUse d := by
  obtain ⟨p, hget, -, rfl⟩ := Server.accept_spec hs
  by_cases hd : d = c
  · subst hd
    exact .inr ⟨Pool.getConn_throw hget, (h.getConn_unused hget).1⟩
  · exact .inl (congrArg Conn.throwSendCnt (Pool.getConn_other hget hd))

/-- A step of the server changes the busy flag of no connection in use, and clears it if any. -/
theorem Server.step_throw {s s' : Server} {a : ServerAct} (h : s.Inv) (hs : s.step a = some s')
    (d : ConnId) : (s'.pool.conn d).throwSendCnt = (s.pool.conn d).throwSendCnt ∨
      (s'.pool.conn d).throwSendCnt = 0 ∧ ¬ s.InUse d := by
  cases a with
  | accept fd now =>
    obtain ⟨⟨c, s₁⟩, hacc, rfl⟩ := Option.map_eq_some_iff.mp hs
    exact accept_throw h hacc d
  | acceptFails fd now =>
    obtain ⟨⟨c, s₁⟩, hacc, rfl⟩ := Option.map_eq_some_iff.mp hs
    show ((s₁.pool.freeConn c).conn d).throwSendCnt = _ ∨
      ((s₁.pool.freeConn c).conn d).throwSendCnt = 0 ∧ _
    rw [Pool.freeConn_throw]
    exact accept_throw h hacc d
  | readable r ret now =>
    simp only [Server.step, Option.ite_none_right_eq_some, Option.some.injEq] at hs
    obtain ⟨-, rfl⟩ := hs
    left
    unfold Server.readEvent
    split
    · rfl
    · split
      · rfl
      · exact Pool.insertRecy_throw ..
      · exact Pool.freeConn_throw ..
  | recycle c now =>
    simp only [Server.step, Option.ite_none_right_eq_some, Option.some.injEq] at hs
    obtain ⟨-, rfl⟩ := hs
    exact .inl (Pool.freeConn_throw ..)

/-! ## Runs -/

/-- A step that meets the condition keeps the invariant. -/
theorem SendThreads.step_inv (s : SendThreads b) (act : SendThAct b) (s' : SendThreads b)
    (h : s.WakeInv) (hok : WakeOk s act) (hs : s.step act = some s') : s'.WakeInv := by
  unfold step at hs
  split at hs
  case isTrue => simp at hs
  case isFalse hdef =>
  cases act with
  | server a =>
    obtain ⟨server, hserver, rfl⟩ := Option.map_eq_some_iff.mp hs
    have hthrow := Server.step_throw h.server hserver
    refine h.conn_move (Server.step_inv _ _ _ h.server hserver) s.handler _ (fun _ hc => hc)
      (fun c hc => ?_) (fun j m hm hl => ?_)
    · rcases hthrow c with heq | ⟨hzero, -⟩
      · rw [heq]
        exact hc
      · rw [hzero]
    · obtain ⟨x, hx, hm⟩ := Option.bind_eq_some_iff.mp hm
      -- the step makes no message current, so this one was
      have hlive := hok.2 a rfl server hserver x (List.mem_of_getElem? hx) m hm hl
      refine ⟨hlive, fun hbusy => ⟨?_, hbusy.2⟩⟩
      rcases hthrow m.hdr.pconn with heq | ⟨-, hnot⟩
      · rw [heq]
        exact hbusy.1
      · exact absurd hlive.1 hnot
  | capture c =>
    simp only [Option.ite_none_right_eq_some, Option.some.injEq] at hs
    obtain ⟨-, rfl⟩ := hs
    exact ⟨h.server, h.cnt, h.tests, h.idle, h.covered⟩
  | call j m =>
    obtain ⟨p, hp, hs⟩ := Option.bind_eq_some_iff.mp hs
    cases p with
    | idle =>
      simp only [Option.ite_none_right_eq_some, Option.some.injEq] at hs
      obtain ⟨-, rfl⟩ := hs
      exact h.sender_pass hp s.mutex rfl rfl
    | calling _ => cases hs
    | locked _ => cases hs
    | pushed => cases hs
    | counted => cases hs
    | posted => cases hs
  | sender j =>
    obtain ⟨p, hp, hs⟩ := Option.bind_eq_some_iff.mp hs
    exact senderStep_inv h hp hs
  | sendTh rs => exact sendThStep_inv h rfl (hok.1 rfl) hs
  | interrupt =>
    simp only [Option.ite_none_right_eq_some, Option.some.injEq] at hs
    obtain ⟨hw, rfl⟩ := hs
    exact h.sendTh_woken hw s.sendQueueSem
  | writable c rs =>
    simp only [Option.ite_none_right_eq_some] at hs
    exact writable_inv h hs.1.1 hs.2
  | handler => exact handlerStep_inv h rfl hs

theorem SendThreads.start_inv (b : Build) (wait : Int) (nows : List Int) (n : Nat) :
    (SendThreads.start b wait nows n).WakeInv := by
  refine ⟨Mgx.start_inv wait nows, ?_, fun i c hc => ?_, fun c hc => ?_, fun j m hm _ => ?_⟩
  · show 0 + ((List.replicate n (SenderAt.idle (b := b))).countP SenderAt.uncounted : Int) + 0 = 0
    rw [List.countP_replicate]
    rfl
  · cases hc
  · cases hc
  · cases hm

/-- **No stranded reply.** In a run in which the send thread never finds a connection busy for which
`send_msg_handler` has posted and not yet cleared the flag, and in which no sequence number comes
round to that of a message in the list, no state is reached in which the send thread is blocked,
nobody is in `send_msg` or `send_msg_handler`, and the list holds a message for an open connection,
in its present occupancy, that is not busy. -/
theorem no_reply_stranded (b : Build) (wait : Int) (nows : List Int) (n : Nat)
    (acts : List (SendThAct b)) (s : SendThreads b)
    (hrun : run SendThreads.step (SendThreads.start b wait nows n) acts = some s)
    (hok : Meets SendThreads.step WakeOk (SendThreads.start b wait nows n) acts) :
    ¬ s.Stranded :=
  (run_invariant SendThreads.step_inv acts _ s (SendThreads.start_inv b wait nows n) hok
    hrun).not_stranded

/-- A reply to the first client is sent. -/
def replyOnce : List (SendThAct .tcp) :=
  .call 0 (pingReplyTo 0 2) :: List.replicate 5 (.sender 0)

/-- The send thread takes `n` steps. -/
def walk (n : Nat) (rs : List SendRet) : List (SendThAct .tcp) := List.replicate n (.sendTh rs)

/-- The epoll thread takes `n` steps. -/
def finishHandler (n : Nat) : List (SendThAct .tcp) := List.replicate n .handler

/-- One client and two replies to it: the send thread gets `EAGAIN` for the first, passes over the
second, uses up the other token, and waits. -/
def twoWaiting : List (SendThAct .tcp) :=
  .server (.accept 5 0) :: .capture 0 ::
    (replyOnce ++ (replyOnce ++ (walk 19 [.fail .eagain] ++ walk 10 [])))

/-- The handler sends the first, and ends before the send thread walks again: both are sent. -/
def twoSent : List (SendThAct .tcp) :=
  twoWaiting ++ (.writable 0 [.sent 8] :: (finishHandler 4 ++ walk 13 [.sent 8]))

theorem no_reply_stranded_twoSent : ∃ s, run SendThreads.step (SendThreads.start .tcp 80 [0] 1)
    twoSent = some s ∧ s.deleted = [0, 1] ∧ ¬ s.Stranded :=
  ⟨_, rfl, rfl, no_reply_stranded .tcp 80 [0] 1 twoSent _ rfl (by decide)⟩

/-- The handler sends the first; the send thread walks between its `sem_post` and its
`throw_send_cnt = 0`. -/
def oneLeft : List (SendThAct .tcp) :=
  twoWaiting ++ (.writable 0 [.sent 8] :: .handler :: (walk 10 [] ++ finishHandler 3))

/-- The second reply is left in the list. -/
theorem reply_stranded : ∃ s, run SendThreads.step (SendThreads.start .tcp 80 [0] 1) oneLeft =
    some s ∧ s.undef = false ∧ s.Stranded := by
  refine ⟨_, rfl, rfl, rfl, rfl, ?_, rfl, 0, pingReplyTo 0 2, rfl, by decide, rfl⟩
  intro p hp
  exact List.mem_singleton.mp hp

end Mgx
