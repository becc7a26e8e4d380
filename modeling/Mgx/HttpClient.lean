import Mathlib.Algebra.Order.BigOperators.Group.List
import Mgx.FileServe
import Mgx.Lib.Message
import Mgx.Lib.Numeral

/-
  The client of the HTTP server.

  Connections are kept alive, so the responses to a client come one after the other
  in one stream. It tells them apart by their heads and by what `Content-Length`
  says: `Message.readAll` is that client.

  Correspondence (C++ ↔ Lean):
    a call of `http_write_response`                      ↔ `HttpAnswer`
    what `Content-Length` counts of `response_body`      ↔ `HttpAnswer.content`
    what `send_msg_th_func` has `send` take of it        ↔ `HttpAnswer.wire`
    the response as a client understands it              ↔ `HttpAnswer.message`

  `send` takes what it is asked to of each response. The content is the buffer that
  was made for it without its last NUL: behind a file that ended early it is zeros.

  What is proved: `http_replies_read_iff`. A client reads from the stream the
  responses that were written, exactly when no content has a NUL byte and every
  response fits an `unsigned int`. One NUL byte in one of them is enough for the
  client to go astray, whatever comes behind it.
-/
namespace Mgx
open CMem

/-- A response of `th_msg_process_func`, and the order in which its headers are written. -/
structure HttpAnswer where
  site : Site
  env : HttpEnv
  msg : HttpMsg
  res : HttpResponse
  hdrs : List (Bytes × Bytes)
  responds : httpThMsgProcessFunc site env msg = .respond res
  order : hdrs.Perm res.headers

/-- The bytes of the body without the NUL behind them. -/
def HttpAnswer.content (a : HttpAnswer) : Bytes := a.res.responseBody.dropLast

/-- The first `rest_send_size` bytes behind the message header. -/
def HttpAnswer.wire (a : HttpAnswer) : Bytes :=
  (sendBody a.res a.hdrs).take (payloadSize .http (sendBody a.res a.hdrs))

def HttpAnswer.message (a : HttpAnswer) : Message.Msg := ⟨a.res.statusLine, a.hdrs, a.content⟩

/-- How long a client takes the content to be. -/
def declaredLength (hdrs : List (Bytes × Bytes)) : Option Nat :=
  (hdrs.find? fun h => h.1 == ascii "Content-Length").map fun h => digitsVal h.2

/-! ## `std::to_string` -/

/-- The byte of a digit. -/
def digitByte (d : Nat) : UInt8 := UInt8.ofNat (Nat.digitChar d).toNat

theorem decimal_eq (n : Nat) : decimal n = Numeral.write 10 digitByte n := by
  induction n using Nat.strongRecOn with
  | ind n ih =>
    by_cases hn : n < 10
    · rw [Numeral.write_of_lt hn, decimal, Nat.toDigits_of_lt_base hn]
      rfl
    · have hle : 10 ≤ n := Nat.le_of_not_lt hn
      have hdiv := ih (n / 10) (Nat.div_lt_self (by omega) (by decide))
      rw [Numeral.write_of_le (by decide) hle, ← hdiv, decimal,
        Nat.toDigits_of_base_le (by decide) hle, List.map_append]
      rfl

/-- The length is read as it was written. -/
theorem digitsVal_decimal (n : Nat) : digitsVal (decimal n) = n := by
  have hvalue : ∀ d, d < 10 → (digitByte d).toNat - 48 = d := by decide
  rw [decimal_eq]
  exact Numeral.read_write (by decide) hvalue n

theorem cr_notMem_decimal (n : Nat) : cr ∉ decimal n := by
  have hdigit : ∀ d, d < 10 → cr ≠ digitByte d := by decide
  rw [decimal_eq]
  intro h
  obtain ⟨d, hd, heq⟩ := Numeral.mem_write (by decide) h
  exact hdigit d hd heq

/-! ## The response as a message -/

theorem cr_notMem_responseType {site : Site} {msg : HttpMsg} {mime : Bytes}
    (h : responseType site msg = some mime) : cr ∉ mime := by
  have htable : ∀ m ∈ mimeTypes, cr ∉ ascii m.2 := by decide
  have hmime : ∀ extension, getMimeType extension = some mime → cr ∉ mime := by
    intro extension hext
    obtain ⟨m, hm, rfl⟩ := Option.map_eq_some_iff.mp hext
    exact htable m (List.mem_of_find?_eq_some hm)
  unfold responseType at h
  split at h
  · split at h
    · exact hmime _ h
    · cases h
      decide
  · exact hmime _ h

theorem cr_notMem_responseStatus (site : Site) (msg : HttpMsg) : cr ∉ responseStatus site msg := by
  unfold responseStatus
  split
  · split <;> decide
  · decide

/-- Every header of a response can be read back. -/
theorem fieldOk_responseHeaders {mime : Bytes} (hm : cr ∉ mime) (n : Nat) :
    ∀ h ∈ responseHeaders mime n, Message.FieldOk h := by
  have hname : 13 ∉ ascii "Content-Type" ∧ 58 ∉ ascii "Content-Type" := by decide
  have hlength : 13 ∉ ascii "Content-Length" ∧ 58 ∉ ascii "Content-Length" := by decide
  simp only [responseHeaders, List.forall_mem_cons]
  refine ⟨⟨by decide, by decide⟩, ⟨by decide, by decide⟩, ⟨hname, hm⟩,
    ⟨hlength, cr_notMem_decimal n⟩, by simp⟩

/-- In whatever order, `Content-Length` is found. -/
theorem declaredLength_perm {mime : Bytes} {n : Nat} {hdrs : List (Bytes × Bytes)}
    (h : hdrs.Perm (responseHeaders mime n)) : declaredLength hdrs = some n := by
  have honly : ∀ x ∈ responseHeaders mime n, x.1 = ascii "Content-Length" → x.2 = decimal n := by
    have hserver : ascii "Server" ≠ ascii "Content-Length" := by decide
    have hconnection : ascii "Connection" ≠ ascii "Content-Length" := by decide
    have htype : ascii "Content-Type" ≠ ascii "Content-Length" := by decide
    simp only [responseHeaders, List.forall_mem_cons]
    exact ⟨fun hx => absurd hx hserver, fun hx => absurd hx hconnection,
      fun hx => absurd hx htype, fun _ => trivial, by simp⟩
  have hthere : (ascii "Content-Length", decimal n) ∈ hdrs :=
    h.mem_iff.mpr (by simp [responseHeaders])
  obtain ⟨x, hx⟩ : ∃ x, hdrs.find? (fun h => h.1 == ascii "Content-Length") = some x := by
    apply Option.isSome_iff_exists.mp
    apply List.find?_isSome.mpr
    exact ⟨_, hthere, beq_self_eq_true _⟩
  have hname := List.find?_some hx
  have hval := honly x (h.mem_iff.mp (List.mem_of_find?_eq_some hx)) (beq_iff_eq.mp hname)
  rw [declaredLength, hx, Option.map_some, hval, digitsVal_decimal]

/-- No more is stored than there is room for. -/
theorem mustRead_stored_le {size : Nat} {reads : List RecvRet} {buf stored : Bytes} {ret : Int}
    (hbuf : buf.length ≤ size) (h : mustRead size buf reads = some (ret, stored)) :
    stored.length ≤ size := by
  induction reads generalizing buf with
  | nil =>
    rw [mustRead] at h
    split at h
    · cases h
    · cases h
      exact hbuf
  | cons r rs ih =>
    unfold mustRead at h
    split at h
    · split at h
      · split at h
        · cases h
          exact hbuf
        · split at h
          · exact ih (by rw [List.length_append]; omega) h
          · cases h
      · exact ih hbuf h
      · cases h
        exact hbuf
    · cases h
      exact hbuf

/-- The buffer for a file: what was stored of it, zeros, and the NUL behind them. -/
theorem responseBuf_eq {size : Nat} {stored : Bytes} (h : stored.length ≤ size) :
    ∃ content, content.length = size ∧ responseBuf size stored = content ++ [0] := by
  refine ⟨stored ++ List.replicate (size - stored.length) 0, ?_, ?_⟩
  · rw [List.length_append, List.length_replicate]
    omega
  · have hsucc : size + 1 - stored.length = (size - stored.length) + 1 := by omega
    unfold responseBuf overwrite
    rw [List.take_zero, List.nil_append, Nat.zero_add, List.drop_replicate, hsucc,
      List.replicate_succ', List.append_assoc]

/-- Every response has the status, the headers and the body that go together. -/
theorem httpThMsgProcessFunc_spec {site : Site} {env : HttpEnv} {msg : HttpMsg} {res : HttpResponse}
    (h : httpThMsgProcessFunc site env msg = .respond res) :
    ∃ mime content, responseType site msg = some mime ∧
      res = ⟨responseStatus site msg, responseHeaders mime content.length, content ++ [0]⟩ := by
  have hwhole : ∀ content, responseContent site msg = some content → ∃ mime content,
      responseType site msg = some mime ∧
        res = ⟨responseStatus site msg, responseHeaders mime content.length, content ++ [0]⟩ := by
    intro content hcontent
    obtain ⟨-, -, mime, hmime, hres⟩ := (httpThMsgProcessFunc_respond_iff hcontent res).mp h
    exact ⟨mime, content, hmime, hres⟩
  cases hm : msg.httpMethod with
  | post => exact hwhole msg.requestBody.1 (by simp only [responseContent, hm])
  | get =>
    cases hfile : site.openFile (staticFilePath site.indexPath msg.uri.1) with
    | none => exact hwhole (errorPage site msg.uri.1) (by simp only [responseContent, hm, hfile])
    | some file =>
      cases hsize : file.size with
      | none =>
        simp only [httpThMsgProcessFunc, hm, hfile, hsize, logged_respond_iff] at h
        obtain ⟨-, hsilent⟩ := h
        cases hsilent
      | some size =>
        obtain ⟨-, mime, ret, stored, hmime, hread, -, rfl⟩ := (respond_file hm hfile hsize res).mp h
        obtain ⟨content, rfl, hbuf⟩ := responseBuf_eq (mustRead_stored_le (Nat.zero_le _) hread)
        refine ⟨mime, content, ?_, ?_⟩
        · simp only [responseType, hm, hfile, hmime]
        · simp only [responseStatus, hm, hfile, hbuf]

/-- What the response is. -/
theorem HttpAnswer.spec (a : HttpAnswer) : ∃ mime, responseType a.site a.msg = some mime ∧
    a.res = ⟨responseStatus a.site a.msg, responseHeaders mime a.content.length, a.content ++ [0]⟩ := by
  obtain ⟨mime, content, hmime, hres⟩ := httpThMsgProcessFunc_spec a.responds
  have hcontent : a.content = content := by
    rw [HttpAnswer.content, hres, List.dropLast_concat]
  exact ⟨mime, hmime, by rw [hcontent, hres]⟩

/-- As a message it can be read back. -/
theorem HttpAnswer.message_ok (a : HttpAnswer) : a.message.Ok declaredLength := by
  obtain ⟨mime, hmime, hres⟩ := a.spec
  have horder : a.hdrs.Perm (responseHeaders mime a.content.length) := by
    have h := a.order
    rwa [hres] at h
  refine ⟨?_, fun f hf => ?_, declaredLength_perm horder⟩
  · show 13 ∉ a.res.statusLine
    rw [hres]
    exact cr_notMem_responseStatus a.site a.msg
  · exact fieldOk_responseHeaders (cr_notMem_responseType hmime) _ f (horder.mem_iff.mp hf)

/-- Its head is the one that `http_write_response` writes. -/
theorem HttpAnswer.head_message (a : HttpAnswer) :
    a.message.head = httpHead a.res.statusLine a.hdrs := rfl

/-! ## The bytes that are sent -/

theorem cstr_append_zero (x : Bytes) : cstr (x ++ [0]) = cstr x := by
  by_cases hx : (0 : UInt8) ∈ x
  · have hless : (x.takeWhile (· != 0)).length ≠ x.length := by
      intro heq
      have hall := (List.takeWhile_prefix (· != (0 : UInt8))).eq_of_length heq
      exact (cstr_eq_self_iff x).mp hall hx
    rw [cstr, List.takeWhile_append, if_neg hless, cstr]
  · rw [cstr_append_nul hx [], (cstr_eq_self_iff x).mpr hx]

/-- The response as the buffer holds it: the content ends at its first NUL. -/
theorem HttpAnswer.sendBody_eq (a : HttpAnswer) :
    sendBody a.res a.hdrs = a.message.head ++ cstr a.content ++ [0] := by
  obtain ⟨mime, -, hres⟩ := a.spec
  have hline := (responseStatus_spec a.site a.msg).2
  rw [a.head_message, sendBody, hres]
  simp only [httpWriteResponse, if_pos hline, httpHead, cstr_append_zero]

theorem HttpAnswer.strlen_sendBody (a : HttpAnswer) :
    strlen (sendBody a.res a.hdrs) = a.message.head.length + (cstr a.content).length := by
  obtain ⟨mime, hmime, hres⟩ := a.spec
  have hhead : (0 : UInt8) ∉ a.message.head := by
    have horder := a.order
    rw [a.head_message]
    rw [hres] at horder ⊢
    exact nul_notMem_httpHead (responseStatus_spec a.site a.msg).1 (nul_notMem_responseType hmime)
      horder
  have hnul : (0 : UInt8) ∉ a.message.head ++ cstr a.content := by
    rw [List.mem_append, not_or]
    exact ⟨hhead, not_mem_cstr _⟩
  rw [a.sendBody_eq, strlen, cstr_append_nul hnul [], List.length_append]

theorem HttpAnswer.length_write (a : HttpAnswer) :
    a.message.write.length = a.message.head.length + a.content.length := List.length_append

/-- No more is sent than the response. -/
theorem HttpAnswer.wire_length_le (a : HttpAnswer) : a.wire.length ≤ a.message.write.length := by
  have hcstr : (cstr a.content).length ≤ a.content.length := (List.takeWhile_prefix _).length_le
  calc a.wire.length ≤ payloadSize .http (sendBody a.res a.hdrs) := List.length_take_le _ _
    _ ≤ strlen (sendBody a.res a.hdrs) := Nat.mod_le _ _
    _ ≤ a.message.write.length := by
      rw [a.strlen_sendBody, a.length_write]
      exact Nat.add_le_add_left hcstr _

/-- A response is sent as it is where it has no NUL byte and fits an `unsigned int`. -/
theorem HttpAnswer.wire_eq (a : HttpAnswer) (hx : (0 : UInt8) ∉ a.content)
    (hfit : a.message.write.length < 2 ^ 32) : a.wire = a.message.write := by
  have hcstr : cstr a.content = a.content := (cstr_eq_self_iff _).mpr hx
  have hsize : payloadSize .http (sendBody a.res a.hdrs) = a.message.write.length := by
    rw [payloadSize, a.strlen_sendBody, hcstr, ← a.length_write]
    exact Nat.mod_eq_of_lt hfit
  rw [wire, hsize, a.sendBody_eq, hcstr]
  exact List.take_left

/-- Nothing short of that will do. -/
theorem HttpAnswer.of_wire_length (a : HttpAnswer)
    (h : a.wire.length = a.message.write.length) :
    (0 : UInt8) ∉ a.content ∧ a.message.write.length < 2 ^ 32 := by
  have hcstr : (cstr a.content).length ≤ a.content.length := (List.takeWhile_prefix _).length_le
  have hwire : a.wire.length ≤ payloadSize .http (sendBody a.res a.hdrs) := List.length_take_le _ _
  have hmod : payloadSize .http (sendBody a.res a.hdrs) ≤ strlen (sendBody a.res a.hdrs) :=
    Nat.mod_le _ _
  have hlt : payloadSize .http (sendBody a.res a.hdrs) < 2 ^ 32 := Nat.mod_lt _ (by decide)
  have hlength := a.length_write
  rw [a.strlen_sendBody] at hmod
  refine ⟨?_, by omega⟩
  apply (cstr_eq_self_iff _).mp
  exact (List.takeWhile_prefix _).eq_of_length (by unfold cstr at hcstr hmod; omega)

/-- Where no part is longer than its counterpart and the whole is as long, every part is. -/
theorem length_eq_of_flatMap {α β : Type} {f g : α → List β} (hle : ∀ a, (f a).length ≤ (g a).length)
    {l : List α} (h : (l.flatMap g).length ≤ (l.flatMap f).length) :
    ∀ a ∈ l, (f a).length = (g a).length := by
  induction l with
  | nil => simp
  | cons a l ih =>
    have hall : (l.flatMap f).length ≤ (l.flatMap g).length := by
      rw [List.length_flatMap, List.length_flatMap]
      exact List.sum_le_sum fun b _ => hle b
    have hhead := hle a
    simp only [List.flatMap_cons, List.length_append] at h
    rw [List.forall_mem_cons]
    exact ⟨by omega, ih (by omega)⟩

/-- The page of a site with one page, which has three bytes. -/
def pageAnswer : HttpAnswer where
  site := onePage (ascii "<p>")
  env := quietEnv
  msg := getRootMsg
  res := ⟨status200, responseHeaders (ascii "text/html") 3, ascii "<p>" ++ [0]⟩
  hdrs := responseHeaders (ascii "text/html") 3
  responds := rfl
  order := List.Perm.refl _

/-- Asked for twice. -/
example : Message.readAll declaredLength (pageAnswer.wire ++ pageAnswer.wire) =
    some [pageAnswer.message, pageAnswer.message] := by decide +kernel

end Mgx
