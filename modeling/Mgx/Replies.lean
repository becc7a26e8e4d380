import Mathlib
import Mgx.Framing
import Mgx.HandlerRead

/-
  What a TCP client gets back.

  A handler that answers builds a message of the message header it was called with
  and a package, and gives it to `send_msg`: PING is answered by a package without
  body, REGISTER by one with a body of 65000 bytes, LOGIN not at all.

  Correspondence (C++ ↔ Lean), `bussiness/mgx_logic_socket.cpp`:
    `PKG_TYPE`                             ↔ `pkgTypePing`, `pkgTypeRegister`
    `send_msg_with_nobody`                 ↔ `sendMsgWithNobody`
    `char send_pkg_body[65000]`            ↔ `sendPkgBody`
    `ping_handler`, `register_handler`,
      `login_handler`: what they send      ↔ `HandlerCall.reply`
      with the line for the log before     ↔ `HandlerCall.perform`
    a message of the queue, processed      ↔ `processMsg`

  The other lines for the log are fixed texts and numbers, and left out.

  `answer` and `decode` are the two ends of the protocol as a client sees it: the
  answer to a package, and how to read a stream of packages by their headers.

  What is proved: `tcp_session`. Whatever a client sends and however it is cut, the
  messages handed to the thread pool are processed without a read outside them if
  and only if the lines of the handlers can be logged. Then the replies, addressed
  to the occupancy that asked, read one after the other are the answers to the
  packages in what the client sent.
-/
namespace Mgx

/-! ## The protocol -/

/-- `PKG_TYPE::PING` and `PKG_TYPE::REGISTER`. -/
def pkgTypePing : Nat := 0

def pkgTypeRegister : Nat := 1

/-- The bytes of an `unsigned short` and of an `unsigned int`. -/
def le16 (n : Nat) : Bytes := [UInt8.ofNat n, UInt8.ofNat (n / 256)]

def le32 (n : UInt32) : Bytes :=
  [UInt8.ofNat n.toNat, UInt8.ofNat (n.toNat / 256), UInt8.ofNat (n.toNat / 256 ^ 2),
    UInt8.ofNat (n.toNat / 256 ^ 3)]

/-- `mgx_pkg_hdr_t` with these fields, and the body behind it. -/
def pkgBytes (pkgType : Nat) (crc : UInt32) (body : Bytes) : Bytes :=
  le16 (pkgHdrSize + body.length) ++ le16 pkgType ++ le32 crc ++ body

/-- The body of a package as the check of the CRC gets it. -/
def checkedBody (body : Bytes) : Option Bytes := if body = [] then none else some body

/-- A package of the protocol: its CRC is that of its body, and zero without one. -/
def package (pkgType : Nat) (body : Bytes) : Bytes :=
  pkgBytes pkgType (if body = [] then 0 else getCrc32 body crc32Init) body

/-- The packages of a stream with their types and bodies, read by their headers; `none` when the
stream is not made of packages with their right CRCs. -/
def decode (bs : Bytes) : Option (List (Nat × Bytes)) :=
  if bs.length = 0 then some []
  else if bs.length < 8 ∨ pkgSize bs < 8 ∨ bs.length < pkgSize bs then none
  else
    let body := (bs.take (pkgSize bs)).drop pkgHdrSize
    if crcMatches bs (checkedBody body) then
      (decode (bs.drop (pkgSize bs))).map fun rest => (pkgType bs, body) :: rest
    else none
termination_by bs.length
decreasing_by
  rw [List.length_drop]
  omega

/-! ## The handlers -/

/-- `send_msg_with_nobody`: the package of the message it sends. -/
def sendMsgWithNobody (pkgType : Nat) : Bytes := pkgBytes pkgType 0 []

/-- `char send_pkg_body[65000] = "register succeed"`. -/
def sendPkgBody : Bytes :=
  [114, 101, 103, 105, 115, 116, 101, 114, 32, 115, 117, 99, 99, 101, 101, 100] ++
    List.replicate (65000 - 16) 0

/-- The message a handler gives to `send_msg`: the message header it was called with, and a
package. -/
def HandlerCall.reply (call : HandlerCall) : Option LogicMsg :=
  match call.handler with
  | .ping =>
    if call.pkgBodySize ≠ 0 then none else some ⟨call.hdr, sendMsgWithNobody pkgTypePing⟩
  | .register =>
    some ⟨call.hdr, pkgBytes pkgTypeRegister (getCrc32 sendPkgBody crc32Init) sendPkgBody⟩
  | .login => none

/-- A handler is called: its line is logged, and it sends its reply. -/
def HandlerCall.perform (call : HandlerCall) (x : LogCtx) : Option (Option LogicMsg) :=
  match call.handler.greeting with
  | none => some call.reply
  | some greeting => (call.debugLine x greeting).map fun _ => call.reply

/-- A message of the queue, processed: what is sent for it. `none` where a byte is read that was
never stored, or that lies past the end, or an argument that was never passed. -/
def processMsg (x : LogCtx) (conn : ConnId → Conn) (m : RecvMem) : Option (Option LogicMsg) :=
  (m.pkg.mapM id).bind fun pkg =>
    (thMsgProcessFunc conn ⟨m.hdr, pkg⟩).bind fun call =>
      match call with
      | none => some none
      | some call => call.perform x

/-- The messages one after the other: what is sent for them, in order. For the message with the
number `i` the log finds `log i`. -/
def processAll (log : Nat → LogCtx) (conn : ConnId → Conn) (ms : List RecvMem) :
    Option (List LogicMsg) :=
  (ms.zipIdx.mapM fun m => processMsg (log m.2) conn m.1).map fun replies => replies.filterMap id

/-- The handler a package comes to, if its CRC is right. -/
def pkgHandler (p : Bytes) : Option PkgHandler :=
  if crcMatches p (checkedBody (p.drop pkgHdrSize)) then pkgHandlers[pkgType p]?.join else none

/-- The line for the package can be logged. -/
def LogCtx.LogsPkg (x : LogCtx) (p : Bytes) : Prop :=
  ∀ handler greeting, pkgHandler p = some handler → handler.greeting = some greeting →
    x.Logs greeting (p.drop pkgHdrSize)

/-- What a client is to get for a package. -/
def answer (p : Bytes) : Option (Nat × Bytes) :=
  if !crcMatches p (checkedBody (p.drop pkgHdrSize)) then none
  else if pkgType p = pkgTypePing then
    if p.drop pkgHdrSize = [] then some (pkgTypePing, []) else none
  else if pkgType p = pkgTypeRegister then some (pkgTypeRegister, sendPkgBody)
  else none

/-! ## Reading a package back -/

theorem length_pkgBytes (pkgType : Nat) (crc : UInt32) (body : Bytes) :
    (pkgBytes pkgType crc body).length = pkgHdrSize + body.length := by
  simp [pkgBytes, le16, le32, pkgHdrSize]
  omega

theorem le16_value {n : Nat} (hn : n < 2 ^ 16) :
    (UInt8.ofNat n).toNat + 256 * (UInt8.ofNat (n / 256)).toNat = n := by
  simp only [UInt8.toNat_ofNat']
  omega

theorem pkgSize_pkgBytes {pkgType : Nat} {crc : UInt32} {body : Bytes}
    (hlen : pkgHdrSize + body.length < 2 ^ 16) (rest : Bytes) :
    pkgSize (pkgBytes pkgType crc body ++ rest) = pkgHdrSize + body.length := by
  simpa [pkgSize, pkgBytes, le16] using le16_value hlen

theorem pkgType_pkgBytes {pkgType : Nat} {crc : UInt32} {body : Bytes} (htype : pkgType < 2 ^ 16)
    (rest : Bytes) : Mgx.pkgType (pkgBytes pkgType crc body ++ rest) = pkgType := by
  simpa [Mgx.pkgType, pkgBytes, le16] using le16_value htype

theorem pkgCrc32_pkgBytes (pkgType : Nat) (crc : UInt32) (body rest : Bytes) :
    pkgCrc32 (pkgBytes pkgType crc body ++ rest) = crc := by
  have hlt := crc.toNat_lt
  have hvalue : (UInt8.ofNat crc.toNat).toNat + 256 * (UInt8.ofNat (crc.toNat / 256)).toNat +
      256 ^ 2 * (UInt8.ofNat (crc.toNat / 256 ^ 2)).toNat +
      256 ^ 3 * (UInt8.ofNat (crc.toNat / 256 ^ 3)).toNat = crc.toNat := by
    simp only [UInt8.toNat_ofNat']
    omega
  have hbytes : pkgCrc32 (pkgBytes pkgType crc body ++ rest) =
      UInt32.ofNat ((UInt8.ofNat crc.toNat).toNat + 256 * (UInt8.ofNat (crc.toNat / 256)).toNat +
        256 ^ 2 * (UInt8.ofNat (crc.toNat / 256 ^ 2)).toNat +
        256 ^ 3 * (UInt8.ofNat (crc.toNat / 256 ^ 3)).toNat) := rfl
  rw [hbytes, hvalue, UInt32.ofNat_toNat]

/-- A package passes the check, and the rest of the stream is read behind it. -/
theorem decode_package {pkgType : Nat} {body rest : Bytes} (htype : pkgType < 2 ^ 16)
    (hlen : pkgHdrSize + body.length < 2 ^ 16) :
    decode (package pkgType body ++ rest) =
      (decode rest).map fun tail => (pkgType, body) :: tail := by
  unfold package
  set crc : UInt32 := if body = [] then 0 else getCrc32 body crc32Init with hcrc
  have hsize : pkgSize (pkgBytes pkgType crc body ++ rest) = pkgHdrSize + body.length :=
    pkgSize_pkgBytes hlen rest
  have hpkg := length_pkgBytes pkgType crc body
  have hdrop : (pkgBytes pkgType crc body ++ rest).drop (pkgHdrSize + body.length) = rest := by
    rw [← hpkg, List.drop_left]
  have htake : (pkgBytes pkgType crc body ++ rest).take (pkgHdrSize + body.length)
      = pkgBytes pkgType crc body := by
    rw [← hpkg, List.take_left]
  have hbody : (pkgBytes pkgType crc body).drop pkgHdrSize = body := rfl
  have hmatch : crcMatches (pkgBytes pkgType crc body ++ rest) (checkedBody body) = true := by
    unfold checkedBody
    by_cases hb : body = []
    · rw [if_pos hb, crcMatches, pkgCrc32_pkgBytes, hcrc, if_pos hb]
      rfl
    · rw [if_neg hb, crcMatches, pkgCrc32_pkgBytes, hcrc, if_neg hb]
      simp
  have hlong : (pkgBytes pkgType crc body ++ rest).length = 8 + body.length + rest.length := by
    rw [List.length_append, hpkg]
    rfl
  unfold pkgHdrSize at hsize hdrop htake
  rw [decode, if_neg (by omega), if_neg (by omega), hsize, htake, hdrop, hbody]
  simp only [hmatch, if_true, pkgType_pkgBytes htype]

/-- **Round trip.** A stream of packages is read as these packages. -/
theorem decode_packages : ∀ {items : List (Nat × Bytes)},
    (∀ x ∈ items, x.1 < 2 ^ 16 ∧ pkgHdrSize + x.2.length < 2 ^ 16) →
      decode (items.map fun x => package x.1 x.2).flatten = some items
  | [], _ => by rw [decode]; rfl
  | x :: items, h => by
    obtain ⟨htype, hlen⟩ := h x List.mem_cons_self
    rw [List.map_cons, List.flatten_cons, decode_package htype hlen,
      decode_packages fun y hy => h y (List.mem_cons_of_mem x hy), Option.map_some]

/-! ## Processing a message -/

theorem mapM_some (p : Bytes) : (p.map some).mapM id = some p := by
  induction p with
  | nil => rfl
  | cons b p ih => simp [ih]

/-- The packages the reference finds are well formed. -/
theorem wellFormed_of_parse (bs : Bytes) : ∀ p ∈ (parse bs).1, WellFormed p := by
  fun_induction parse bs with
  | case1 bs h => simp
  | case2 bs h hbad ih => exact ih
  | case3 bs h hok hlt => simp
  | case4 bs h hok hle r ih =>
    intro p hp
    rcases List.mem_cons.mp hp with rfl | hp
    · have hlen : (bs.take (pkgSize bs)).length = pkgSize bs := by
        rw [List.length_take]
        omega
      exact ⟨by rw [pkgSize_take (by omega), hlen], by omega, by omega⟩
    · exact ih p hp

theorem length_sendPkgBody : sendPkgBody.length = 65000 := by
  rw [sendPkgBody, List.length_append, List.length_replicate]
  rfl

theorem sendPkgBody_ne_nil : sendPkgBody ≠ [] := by
  apply List.ne_nil_of_length_pos
  rw [length_sendPkgBody]
  decide

/-- What the handlers build are packages of the protocol. -/
theorem package_ping : package pkgTypePing [] = sendMsgWithNobody pkgTypePing := rfl

theorem package_register : package pkgTypeRegister sendPkgBody =
    pkgBytes pkgTypeRegister (getCrc32 sendPkgBody crc32Init) sendPkgBody := by
  rw [package, if_neg sendPkgBody_ne_nil]

theorem checkedBody_getD (body : Bytes) : (checkedBody body).getD [] = body := by
  unfold checkedBody
  by_cases h : body = []
  · rw [if_pos h, h]
    rfl
  · rw [if_neg h]
    rfl

/-- The call that a well-formed package of the current occupancy comes to. -/
theorem thMsgProcessFunc_wellFormed (conn : ConnId → Conn) (hdr : MsgHdr) {p : Bytes}
    (hp : WellFormed p) (hseq : seqEq (conn hdr.pconn).curSeq hdr.curSeq = true) :
    thMsgProcessFunc conn ⟨hdr, p⟩ = some ((pkgHandler p).map fun handler =>
      ⟨handler, hdr, checkedBody (p.drop pkgHdrSize), p.length - pkgHdrSize⟩) := by
  obtain ⟨hsize, hlo, hhi⟩ := hp
  have hbody : (p.drop pkgHdrSize).take (p.length - pkgHdrSize) = p.drop pkgHdrSize := by
    apply List.take_of_length_le
    rw [List.length_drop]
  have hnone : p.drop pkgHdrSize = [] ↔ p.length = pkgHdrSize := by
    rw [List.drop_eq_nil_iff]
    unfold pkgHdrSize
    omega
  have hchecked : (if p.length = pkgHdrSize then none else some (p.drop pkgHdrSize))
      = checkedBody (p.drop pkgHdrSize) := by
    unfold checkedBody
    by_cases h : p.length = pkgHdrSize
    · rw [if_pos h, if_pos (hnone.mpr h)]
    · rw [if_neg h, if_neg fun hd => h (hnone.mp hd)]
  have hshort : ¬ p.length < pkgHdrSize := by
    unfold pkgHdrSize
    omega
  have hout : ¬ (p.length ≠ pkgHdrSize ∧ (p.length < pkgHdrSize ∨ p.length < p.length)) := by omega
  rw [thMsgProcessFunc, pkgHandler]
  simp only [hsize, if_neg hshort, if_neg hout, hbody, hchecked, hseq, Bool.not_true,
    Bool.false_eq_true, if_false]
  cases hcrc : crcMatches p (checkedBody (p.drop pkgHdrSize)) with
  | false => simp
  | true =>
    simp only [Bool.not_true, Bool.false_eq_true, if_false, if_true]
    rcases hhandler : pkgHandlers[pkgType p]? with _ | _ | handler <;> rfl

/-- What the handlers send is what a client is to get. -/
theorem reply_answer (hdr : MsgHdr) (p : Bytes) :
    ((pkgHandler p).bind fun handler => HandlerCall.reply
        ⟨handler, hdr, checkedBody (p.drop pkgHdrSize), p.length - pkgHdrSize⟩) =
      (answer p).map fun x => ⟨hdr, package x.1 x.2⟩ := by
  unfold pkgHandler answer
  cases hcrc : crcMatches p (checkedBody (p.drop pkgHdrSize)) with
  | false => simp
  | true =>
    simp only [if_true, Bool.not_true, Bool.false_eq_true, if_false]
    rcases htype : pkgType p with _ | _ | _ | _ | n
    · -- PING
      have hnone : p.drop pkgHdrSize = [] ↔ p.length - pkgHdrSize = 0 := by
        rw [List.drop_eq_nil_iff, Nat.sub_eq_zero_iff_le]
      simp only [pkgHandlers, List.getElem?_cons_zero, Option.join_some, Option.bind_some,
        HandlerCall.reply, pkgTypePing, if_true]
      by_cases h : p.drop pkgHdrSize = []
      · rw [if_pos h, if_neg (not_not_intro (hnone.mp h)), Option.map_some]
        exact congrArg (fun b => some (LogicMsg.mk hdr b)) package_ping.symm
      · rw [if_neg h, if_pos (mt hnone.mpr h), Option.map_none]
    · -- REGISTER
      simp only [pkgHandlers, List.getElem?_cons_succ, List.getElem?_cons_zero, Option.join_some,
        Option.bind_some, HandlerCall.reply]
      exact congrArg (fun b => some (LogicMsg.mk hdr b)) package_register.symm
    · simp [pkgHandlers, HandlerCall.reply, pkgTypePing, pkgTypeRegister]
    · simp [pkgHandlers, pkgTypePing, pkgTypeRegister]
    · simp [pkgHandlers, pkgTypePing, pkgTypeRegister]

/-- A well-formed package of the current occupancy is processed exactly when its line can be logged,
and then it is answered as a client expects. -/
theorem processMsg_emit (x : LogCtx) {conn : ConnId → Conn} {self : ConnId} {seq : Nat} {p : Bytes}
    (hp : WellFormed p) (hseq : seqEq (conn self).curSeq seq = true) :
    ((processMsg x conn (emit self seq p)).isSome ↔ x.LogsPkg p) ∧
    ∀ reply, processMsg x conn (emit self seq p) = some reply →
      reply = (answer p).map fun y => ⟨⟨self, seq⟩, package y.1 y.2⟩ := by
  have hcall := thMsgProcessFunc_wellFormed conn ⟨self, seq⟩ hp hseq
  have hanswer := reply_answer ⟨self, seq⟩ p
  rw [processMsg, emit, mapM_some, Option.bind_some, hcall, Option.bind_some]
  unfold LogCtx.LogsPkg
  cases hhandler : pkgHandler p with
  | none =>
    rw [hhandler, Option.bind_none] at hanswer
    refine ⟨iff_of_true rfl ?_, fun reply h => (Option.some.inj h).symm.trans hanswer⟩
    intro handler greeting heq
    cases heq
  | some handler =>
    rw [hhandler, Option.bind_some] at hanswer
    simp only [Option.map_some, HandlerCall.perform]
    cases hgreeting : handler.greeting with
    | none =>
      refine ⟨iff_of_true rfl ?_, fun reply h => (Option.some.inj h).symm.trans hanswer⟩
      intro handler' greeting heq hsome
      obtain rfl := Option.some.inj heq
      rw [hgreeting] at hsome
      cases hsome
    | some greeting =>
      constructor
      · rw [Option.isSome_map, HandlerCall.debugLine_isSome_iff hgreeting, checkedBody_getD]
        constructor
        · intro hlogs handler' greeting' heq hsome
          obtain rfl := Option.some.inj heq
          obtain rfl := Option.some.inj (hgreeting.symm.trans hsome)
          exact hlogs
        · exact fun hall => hall handler greeting rfl hgreeting
      · intro reply h
        obtain ⟨line, -, heq⟩ := Option.map_eq_some_iff.mp h
        exact heq.symm.trans hanswer

/-! ## Sessions -/

/-- From the `k`-th message on. -/
theorem mapM_processMsg_emit (log : Nat → LogCtx) {conn : ConnId → Conn} {self : ConnId} {seq : Nat}
    (hseq : seqEq (conn self).curSeq seq = true) {ps : List Bytes} (hps : ∀ p ∈ ps, WellFormed p) :
    ∀ k, ((((ps.map (emit self seq)).zipIdx k).mapM fun m => processMsg (log m.2) conn m.1).isSome ↔
        ∀ i p, ps[i]? = some p → (log (k + i)).LogsPkg p) ∧
      ∀ replies,
        ((ps.map (emit self seq)).zipIdx k).mapM (fun m => processMsg (log m.2) conn m.1) =
            some replies →
          replies = ps.map fun p => (answer p).map fun y => ⟨⟨self, seq⟩, package y.1 y.2⟩ := by
  induction ps with
  | nil => exact fun k => ⟨iff_of_true rfl nofun, fun _ h => (Option.some.inj h).symm⟩
  | cons p ps ih =>
    intro k
    obtain ⟨hhead, hreply⟩ := processMsg_emit (log k) (hps p List.mem_cons_self) hseq
    obtain ⟨htail, hreplies⟩ := ih (fun q hq => hps q (List.mem_cons_of_mem p hq)) (k + 1)
    have hall : (∀ i q, (p :: ps)[i]? = some q → (log (k + i)).LogsPkg q) ↔
        (log k).LogsPkg p ∧ ∀ i q, ps[i]? = some q → (log (k + 1 + i)).LogsPkg q := by
      constructor
      · intro h
        refine ⟨h 0 p rfl, fun i q hq => ?_⟩
        rw [Nat.add_assoc, Nat.add_comm 1 i]
        exact h (i + 1) q hq
      · intro ⟨hp, h⟩ i q hq
        cases i with
        | zero =>
          obtain rfl := Option.some.inj hq
          exact hp
        | succ i =>
          rw [Nat.add_comm i 1, ← Nat.add_assoc]
          exact h i q hq
    rw [hall, ← hhead, ← htail, List.map_cons, List.zipIdx_cons, List.mapM_cons]
    cases hp : processMsg (log k) conn (emit self seq p) with
    | none => exact ⟨iff_of_false Bool.noConfusion fun h => Bool.noConfusion h.1, nofun⟩
    | some r =>
      cases hrest : ((ps.map (emit self seq)).zipIdx (k + 1)).mapM
          fun m => processMsg (log m.2) conn m.1 with
      | none => exact ⟨iff_of_false Bool.noConfusion fun h => Bool.noConfusion h.2, nofun⟩
      | some rs =>
        refine ⟨iff_of_true rfl ⟨rfl, rfl⟩, fun replies h => ?_⟩
        obtain rfl := Option.some.inj h
        rw [List.map_cons, ← hreply r hp, ← hreplies rs hrest]

theorem processAll_emit (log : Nat → LogCtx) {conn : ConnId → Conn} {self : ConnId} {seq : Nat}
    (hseq : seqEq (conn self).curSeq seq = true) {ps : List Bytes} (hps : ∀ p ∈ ps, WellFormed p) :
    ((processAll log conn (ps.map (emit self seq))).isSome ↔
      ∀ i p, ps[i]? = some p → (log i).LogsPkg p) ∧
    ∀ replies, processAll log conn (ps.map (emit self seq)) = some replies →
      replies = (ps.filterMap answer).map fun y => ⟨⟨self, seq⟩, package y.1 y.2⟩ := by
  obtain ⟨hsome, hreplies⟩ := mapM_processMsg_emit log hseq hps 0
  simp only [Nat.zero_add] at hsome
  constructor
  · rw [processAll, Option.isSome_map, hsome]
  · intro replies h
    obtain ⟨rs, hrs, rfl⟩ := Option.map_eq_some_iff.mp h
    rw [hreplies rs hrs, List.filterMap_map, List.map_filterMap]
    rfl

theorem answer_cases {p : Bytes} {x : Nat × Bytes} (h : answer p = some x) :
    x = (pkgTypePing, []) ∨ x = (pkgTypeRegister, sendPkgBody) := by
  unfold answer at h
  split at h
  next => cases h
  next =>
    split at h
    next =>
      split at h
      next => exact Or.inl (Option.some.inj h).symm
      next => cases h
    next =>
      split at h
      next => exact Or.inr (Option.some.inj h).symm
      next => cases h

theorem answer_bounds {p : Bytes} {x : Nat × Bytes} (h : answer p = some x) :
    x.1 < 2 ^ 16 ∧ pkgHdrSize + x.2.length < 2 ^ 16 := by
  rcases answer_cases h with h | h
  · rw [h]
    exact ⟨by decide, by decide⟩
  · have htype : x.1 = pkgTypeRegister := congrArg Prod.fst h
    have hbody : x.2 = sendPkgBody := congrArg Prod.snd h
    rw [htype, hbody, length_sendPkgBody]
    exact ⟨by decide, by decide⟩

/-- The run of the read handler: the messages are the packages of the bytes consumed. -/
theorem readRun_messages (self : ConnId) {c : Conn} {rs : List RecvRet} (hc : c.Fresh)
    (hrs : Arrivals self c rs) :
    ∃ c', readRun self c rs = some (c', (parse (consumed rs)).1.map (emit self c.curSeq)) := by
  obtain ⟨hrun, hfits⟩ := readRun_eq_feed self rs c hrs
  obtain ⟨c', hfeed, -⟩ := sim_singles (consumed rs) [] c (hc.sim self)
  refine ⟨c', ?_⟩
  rw [hrun, Chunks.feed_flatten (readChunk_splits self) _ c (hc.sim self).inv hfits, reads_flatten]
  exact hfeed

/-- **A session.** A client sends bytes in any segmentation on a connection just opened, and the
messages the read handler hands on are processed in their order while the occupancy lasts. No byte is
read that was not received, and no argument that was not passed, exactly when the line of each
REGISTER and LOGIN among the packages of what was received can be logged. Then every reply is
addressed to the occupancy; and what is sent, read package by package, is the answers to these
packages. -/
theorem tcp_session (self : ConnId) (c : Conn) (rs : List RecvRet) (conn : ConnId → Conn)
    (hc : c.Fresh) (hrs : Arrivals self c rs) (hconn : (conn self).curSeq = c.curSeq)
    (log : Nat → LogCtx) :
    ∃ c' ms, readRun self c rs = some (c', ms) ∧
      ((processAll log conn ms).isSome ↔
        ∀ i p, (parse (consumed rs)).1[i]? = some p → (log i).LogsPkg p) ∧
      ∀ replies, processAll log conn ms = some replies →
        (∀ r ∈ replies, r.hdr = ⟨self, c.curSeq⟩) ∧
        decode (replies.map LogicMsg.pkg).flatten =
          some ((parse (consumed rs)).1.filterMap answer) := by
  obtain ⟨c', hrun⟩ := readRun_messages self hc hrs
  have hseq : seqEq (conn self).curSeq c.curSeq = true := by rw [hconn, seqEq_self]
  obtain ⟨hsome, hreplies⟩ := processAll_emit log hseq (wellFormed_of_parse (consumed rs))
  refine ⟨c', _, hrun, hsome, fun replies h => ?_⟩
  rw [hreplies replies h]
  constructor
  · intro r hr
    obtain ⟨x, -, rfl⟩ := List.mem_map.mp hr
    rfl
  · rw [List.map_map]
    apply decode_packages
    intro x hx
    obtain ⟨p, -, hp⟩ := List.mem_filterMap.mp hx
    exact answer_bounds hp

/-- A PING has no line with a body in it. -/
theorem logsPkg_ping (x : LogCtx) : x.LogsPkg (sendMsgWithNobody 0) := by
  have hping : pkgHandler (sendMsgWithNobody 0) = some .ping := by decide
  intro handler greeting heq hgreeting
  rw [hping] at heq
  obtain rfl := Option.some.inj heq
  cases hgreeting

/-- Two PINGs, the first cut in two and the second joined to its end. -/
theorem tcp_session_pings :
    let rs := [RecvRet.got [8, 0, 0], .fail .eagain, .got [0, 0, 0, 0, 0],
      .got [8, 0, 0, 0, 0, 0, 0, 0]]
    ∃ c' ms replies, readRun 3 (Conn.new.getOneToUse 0) rs = some (c', ms) ∧
      processAll (fun _ => debugLog.ctx) (fun _ => Conn.new.getOneToUse 0) ms = some replies ∧
      (∀ r ∈ replies, r.hdr = ⟨3, 1⟩) ∧
      decode (replies.map LogicMsg.pkg).flatten = some [(0, []), (0, [])] := by
  intro rs
  have hpings : ∀ p ∈ [sendMsgWithNobody 0, sendMsgWithNobody 0], WellFormed p := by
    intro p hp
    obtain rfl : p = sendMsgWithNobody 0 := by simpa using hp
    exact ⟨rfl, by decide, by decide⟩
  have hbytes : consumed rs = [sendMsgWithNobody 0, sendMsgWithNobody 0].flatten := by decide
  obtain ⟨c', ms, hrun, hsome, hreplies⟩ := tcp_session 3 (Conn.new.getOneToUse 0) rs
    (fun _ => Conn.new.getOneToUse 0) (Conn.getOneToUse_fresh _ _) (by decide) rfl
    fun _ => debugLog.ctx
  rw [hbytes, parse_packages _ hpings] at hsome hreplies
  obtain ⟨replies, hserve⟩ := Option.isSome_iff_exists.mp (hsome.mpr fun i p hp => by
    obtain rfl : p = sendMsgWithNobody 0 := by simpa using List.mem_of_getElem? hp
    exact logsPkg_ping _)
  obtain ⟨hhdr, hdecode⟩ := hreplies replies hserve
  exact ⟨c', ms, replies, hrun, hserve, hhdr, hdecode.trans (by decide)⟩

/-- A LOGIN with the body `abc` and no NUL is not processed: the log reads on behind it. -/
example : ¬ debugLog.ctx.LogsPkg (loginHead ++ [97, 98, 99]) := by
  intro hlogs
  obtain hlevel | ⟨hread, -⟩ := hlogs .login _ (by decide +kernel) rfl
  · exact absurd hlevel (by decide)
  · exact absurd hread (by decide +kernel)

/-! ## The receive path of a peer -/

/-- **Who can read the replies.** A peer that receives as this program does, with its limit on the
size of a package, reads back the answers to what it sent exactly when no REGISTER was answered. -/
theorem replies_framed_iff (ps : List Bytes) :
    parse ((ps.filterMap answer).map fun x => package x.1 x.2).flatten =
        ((ps.filterMap answer).map fun x => package x.1 x.2, []) ↔
      ∀ p ∈ ps, ∀ x, answer p = some x → x.1 = pkgTypePing := by
  constructor
  · intro hparse p hp x hx
    have hmem : package x.1 x.2 ∈
        (parse ((ps.filterMap answer).map fun x => package x.1 x.2).flatten).1 := by
      rw [hparse]
      exact List.mem_map_of_mem (List.mem_filterMap.mpr ⟨p, hp, hx⟩)
    obtain ⟨-, -, hmax⟩ := wellFormed_of_parse _ _ hmem
    rcases answer_cases hx with h | h
    · rw [h]
    · -- the reply to REGISTER is too long
      have hbody : x.2 = sendPkgBody := congrArg Prod.snd h
      rw [package, length_pkgBytes, hbody, length_sendPkgBody] at hmax
      unfold pkgHdrSize at hmax
      omega
  · intro hping
    apply parse_packages
    intro q hq
    obtain ⟨x, hx, rfl⟩ := List.mem_map.mp hq
    obtain ⟨p, hp, hpx⟩ := List.mem_filterMap.mp hx
    rcases answer_cases hpx with h | h
    · rw [h]
      exact ⟨rfl, by decide, by decide⟩
    · have htype : x.1 = pkgTypeRegister := congrArg Prod.fst h
      rw [hping p hp x hpx] at htype
      exact absurd htype (by decide)

end Mgx
