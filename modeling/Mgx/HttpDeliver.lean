import Mgx.HttpReader

/-
  What of a request reaches the thread pool.

  The handler keeps the body as a counted buffer, takes its size with `strlen`
  and copies it with `strcpy`; a return value of 0 is an empty body as well as a
  shutdown; and the URI ends where "HTTP/" is first found.

  What is proved: `request_delivered_iff`. A complete request, all of which is
  there to be read, is handed on as it was sent exactly when it is `Deliverable`:
  it fits `recv_buf`, its URI does not contain "HTTP/", and it is a GET without
  `Content-Length` or a POST with a nonempty body without NUL.
-/
namespace Mgx
open CMem Inflow

/-- The message has the method, the URI and the body of the request. -/
structure Carries (hdr : MsgHdr) (r : HttpRequest) (msg : HttpMsg) : Prop where
  hdr : msg.hdr = hdr
  method : msg.httpMethod = r.method
  uri : msg.uri.1 = r.uri
  body : msg.requestBody.1 = r.body

/-- The handler call hands one message to the thread pool, the request as it was sent. -/
def Delivered (behind : UInt8) (hdr : MsgHdr) (r : HttpRequest) (l : List SockItem) : Prop :=
  ∃ msg rest, httpReadRequestHandler behind hdr l = .done (some msg) rest ∧ Carries hdr r msg

/-- The body reaches the message: there is none and none is declared, or the method is POST and the
body is a nonempty string whose length `stoi` takes. -/
def HttpRequest.BodyKept (r : HttpRequest) : Prop :=
  match r.method with
  | .get => ¬ r.HasLength ∧ r.body = []
  | .post => r.HasLength ∧ r.body ≠ [] ∧ 0 ∉ r.body ∧ r.body.length < 2 ^ 31

/-- What the handler needs of a request to hand it on intact. -/
structure HttpRequest.Deliverable (r : HttpRequest) : Prop where
  line : r.requestLine.length ≤ recvBufSize
  head : r.requestHead.length ≤ recvBufSize
  uri : ¬ ascii "HTTP/" <:+: r.uri
  body : r.BodyKept

/-! ## The request line -/

theorem http_ne_nil : ascii "HTTP/" ≠ [] := by decide

/-- Where `strstr` finds the version, or something like it. -/
theorem strstr_requestLine (r : HttpRequest) :
    strstr (ascii "HTTP/") r.requestLine = some (r.method.str.length + 1 +
      match strstr (ascii "HTTP/") r.uri with
      | some j => j
      | none => r.uri.length + 1) := by
  have hspace : (32 : UInt8) ∉ ascii "HTTP/" := by decide
  have hmethod : strstr (ascii "HTTP/") r.method.str = none := by
    cases r.method <;> decide
  have hline : r.requestLine =
      r.method.str ++ 32 :: (r.uri ++ 32 :: (ascii "HTTP/" ++ r.version)) := rfl
  rw [hline, strstr_append_cons http_ne_nil hspace, hmethod,
    strstr_append_cons http_ne_nil hspace, strstr_append_self http_ne_nil]
  cases strstr (ascii "HTTP/") r.uri with
  | some j => simp only [Option.map_some, Option.some.injEq]; omega
  | none => simp only [Option.map_some, Option.some.injEq]; omega

/-- What is behind the method and its space. -/
theorem HttpRequest.requestLine_drop (r : HttpRequest) :
    r.requestLine.drop (r.method.str.length + 1) =
      r.uri ++ 32 :: (ascii "HTTP/" ++ r.version) := by
  show List.drop _ (r.method.str ++ 32 :: (r.uri ++ 32 :: (ascii "HTTP/" ++ r.version))) = _
  rw [List.drop_length_add_append, List.drop_one, List.tail_cons]

/-- `n` bytes from the start of the URI on. -/
theorem HttpRequest.requestLine_substr (r : HttpRequest) (hnul : (0 : UInt8) ∉ r.requestLine)
    {n : Nat} (hn : n ≤ r.uri.length) :
    (CStr.of r.requestLine).substr (r.method.str.length + 1) n = .of (r.uri.take n) := by
  have hline : (CStr.of r.requestLine).1 = r.requestLine := (cstr_eq_self_iff _).mpr hnul
  have htake : (r.requestLine.drop (r.method.str.length + 1)).take n = r.uri.take n := by
    rw [r.requestLine_drop, List.take_append_of_le_length hn]
  have hno : (0 : UInt8) ∉ r.uri.take n := by
    rw [← htake]
    exact fun h => hnul (List.mem_of_mem_drop (List.mem_of_mem_take h))
  apply Subtype.ext
  show ((CStr.of r.requestLine).1.drop _).take n = cstr (r.uri.take n)
  rw [hline, htake, (cstr_eq_self_iff _).mpr hno]

/-- The parser gets the URI up to its first "HTTP/", less one byte. -/
theorem HttpRequest.WellFormed.parseLine_eq {r : HttpRequest} (hw : r.WellFormed) :
    httpParseRequestLine r.requestLine =
      match strstr (ascii "HTTP/") r.uri with
      | none => some (some (r.method, .of r.uri))
      | some j => if 1 ≤ j then some (some (r.method, .of (r.uri.take (j - 1)))) else none := by
  have hnul := hw.text_requestLine.nul_notMem
  rw [httpParseRequestLine_method r hnul, strstr_requestLine, Option.bind_some]
  cases hfind : strstr (ascii "HTTP/") r.uri with
  | none =>
    -- the first "HTTP/" is that of the version
    have hn : r.method.str.length + 1 + (r.uri.length + 1) - r.method.str.length - 2 =
        r.uri.length := by omega
    simp only [hn]
    rw [if_pos (by omega), r.requestLine_substr hnul (Nat.le_refl _), List.take_length]
  | some j =>
    have hle := strstr_le hfind
    have hn : r.method.str.length + 1 + j - r.method.str.length - 2 = j - 1 := by omega
    have hiff : r.method.str.length + 2 ≤ r.method.str.length + 1 + j ↔ 1 ≤ j := by omega
    simp only [hn, hiff]
    rw [r.requestLine_substr hnul (by omega)]

/-! ## The handler -/

/-- What the message made from the body carries. -/
theorem handledBody_carries (hdr : MsgHdr) (uri : CStr) (r : HttpRequest) :
    (∃ msg, r.handledBody hdr r.method uri = some (some msg) ∧ Carries hdr r msg) ↔
      uri.1 = r.uri ∧ r.BodyKept := by
  unfold HttpRequest.handledBody HttpRequest.BodyKept
  cases hm : r.method with
  | get =>
    constructor
    · rintro ⟨msg, hmsg, hcarries⟩
      split at hmsg
      · split at hmsg
        · cases hmsg
        · split at hmsg
          · cases hmsg
          · -- the body of a GET is received and not copied into the message
            rename_i hne
            obtain rfl : _ = msg := Option.some.inj (Option.some.inj hmsg)
            exact absurd hcarries.body.symm hne
      · rename_i hno
        obtain rfl : _ = msg := Option.some.inj (Option.some.inj hmsg)
        exact ⟨hcarries.uri, hno, hcarries.body.symm⟩
    · rintro ⟨huri, hno, hbody⟩
      rw [if_neg hno]
      exact ⟨_, rfl, rfl, hm.symm, huri, hbody.symm⟩
  | post =>
    constructor
    · rintro ⟨msg, hmsg, hcarries⟩
      split at hmsg
      · rename_i hlength
        split at hmsg
        · cases hmsg
        · rename_i hsmall
          split at hmsg
          · cases hmsg
          · rename_i hne
            obtain rfl : _ = msg := Option.some.inj (Option.some.inj hmsg)
            exact ⟨hcarries.uri, hlength, hne, (cstr_eq_self_iff _).mp hcarries.body,
              Nat.lt_of_not_le hsmall⟩
      · cases hmsg
    · rintro ⟨huri, hlength, hne, hnul, hsmall⟩
      rw [if_pos hlength, if_neg (Nat.not_le_of_lt hsmall), if_neg hne]
      exact ⟨_, rfl, rfl, hm.symm, huri, (cstr_eq_self_iff _).mpr hnul⟩

/-- What the handler makes of a complete request carries it exactly when it is deliverable. -/
theorem HttpRequest.WellFormed.handled_carries {r : HttpRequest} (hw : r.WellFormed)
    (hdr : MsgHdr) :
    (∃ msg, r.handled hdr = some (some msg) ∧ Carries hdr r msg) ↔ r.Deliverable := by
  have hfind := strstr_eq_none_iff http_ne_nil r.uri
  constructor
  · rintro ⟨msg, hmsg, hcarries⟩
    unfold HttpRequest.handled at hmsg
    split at hmsg
    case isTrue => cases hmsg
    case isFalse hline =>
    rw [hw.parseLine_eq] at hmsg
    cases hsearch : strstr (ascii "HTTP/") r.uri with
    | some j =>
      -- the URI of the message is too short
      have hle := strstr_le hsearch
      have hpos : 0 < (ascii "HTTP/").length := by decide
      rw [hsearch] at hmsg
      by_cases hj : 1 ≤ j
      · simp only [hj, if_true] at hmsg
        split at hmsg
        · cases hmsg
        · obtain ⟨huri, -⟩ := (handledBody_carries hdr _ r).mp ⟨msg, hmsg, hcarries⟩
          have hlen : (cstr (r.uri.take (j - 1))).length = r.uri.length := congrArg List.length huri
          have hcut : (cstr (r.uri.take (j - 1))).length ≤ (r.uri.take (j - 1)).length :=
            (List.takeWhile_prefix _).length_le
          rw [List.length_take] at hcut
          omega
      · simp only [hj, if_false] at hmsg
        cases hmsg
    | none =>
      rw [hsearch] at hmsg
      simp only at hmsg
      split at hmsg
      · cases hmsg
      · rename_i hhead
        obtain ⟨-, hbody⟩ := (handledBody_carries hdr _ r).mp ⟨msg, hmsg, hcarries⟩
        exact ⟨Nat.le_of_not_lt hline, Nat.le_of_not_lt hhead, hfind.mp hsearch, hbody⟩
  · rintro ⟨hline, hhead, huri, hbody⟩
    have huri' : (CStr.of r.uri).1 = r.uri := (cstr_eq_self_iff _).mpr hw.uri.nul_notMem
    unfold HttpRequest.handled
    rw [if_neg (Nat.not_lt_of_le hline), hw.parseLine_eq, hfind.mpr huri]
    simp only [Nat.not_lt_of_le hhead, if_false]
    exact (handledBody_carries hdr _ r).mpr ⟨huri', hbody⟩

theorem HttpRead.bind_eq_done {α β : Type} {x : HttpRead α} {f : α → List SockItem → HttpRead β}
    {b : β} {rest : List SockItem} :
    x.bind f = .done b rest ↔ ∃ a l, x = .done a l ∧ f a l = .done b rest := by
  cases x with
  | fault => simp [bind]
  | blocked release l => simp [bind]
  | done a l => simp [bind]

/-- A message is handed on only when the empty line was recognised. -/
theorem httpReadRequestHandler_behind {behind : UInt8} {hdr : MsgHdr} {l rest : List SockItem}
    {msg : HttpMsg} (h : httpReadRequestHandler behind hdr l = .done (some msg) rest) :
    behind = 0 := by
  obtain ⟨line, l₁, -, h⟩ := HttpRead.bind_eq_done.mp h
  split at h
  · cases h
  · split at h
    · cases h
    · cases h
    · obtain ⟨head, l₂, hhead, -⟩ := HttpRead.bind_eq_done.mp h
      exact (httpReadLoop_done hhead).1

/-- **When a request is delivered intact.** For every complete request with a header line, all of it
available, whatever comes after it: the handler hands exactly one message to the thread pool, with
the method, the URI and the body that were sent, if and only if the byte behind the two-byte buffer
of the peek is 0 and the request is deliverable. -/
theorem request_delivered_iff (behind : UInt8) (hdr : MsgHdr) {r : HttpRequest}
    (hw : r.WellFormed) (hne : r.headers ≠ []) {t : List SockItem} (h : r.ArrivesIn t)
    (rest : List SockItem) :
    Delivered behind hdr r (t ++ rest) ↔ behind = 0 ∧ r.Deliverable := by
  obtain ⟨t₁, t₃, rfl, h₁, h₃⟩ := h
  rw [← hw.handled_carries hdr]
  constructor
  · rintro ⟨msg, rest', hdone, hcarries⟩
    have hbehind := httpReadRequestHandler_behind hdone
    rw [httpReadRequestHandler_uncut hbehind hdr hw hne h₁ h₃] at hdone
    refine ⟨hbehind, msg, ?_, hcarries⟩
    cases hhandled : r.handled hdr with
    | none => rw [hhandled] at hdone; cases hdone
    | some o =>
      rw [hhandled] at hdone
      cases hdone
      rfl
  · rintro ⟨hbehind, msg, hhandled, hcarries⟩
    refine ⟨msg, r.left t₃ rest, ?_, hcarries⟩
    rw [httpReadRequestHandler_uncut hbehind hdr hw hne h₁ h₃, hhandled]
    rfl

theorem request_delivered_iff_abc :
    Delivered 0 ⟨0, 1⟩ postAbc (postAbc.bytes.map .val ++ getRoot.bytes.map .val) := by
  have hbody : postAbc.BodyKept :=
    ⟨by decide, by decide, by decide, by decide⟩
  have hkept : postAbc.Deliverable :=
    ⟨by decide, by decide, by decide, hbody⟩
  exact (request_delivered_iff 0 ⟨0, 1⟩ postAbc_wellFormed (by decide)
    postAbc.arrivesIn_bytes _).mpr ⟨rfl, hkept⟩

/-- A POST request without a body. -/
def postNothing : HttpRequest where
  method := .post
  uri := ascii "/x"
  version := ascii "1.1"
  headers := [(ascii "Host", ascii " a")]
  body := []

/-- `strcpy` reads from the null `request_body`. -/
theorem request_not_delivered :
    postNothing.WellFormed ∧ postNothing.headers ≠ [] ∧
      httpReadRequestHandler 0 ⟨0, 1⟩ (postNothing.bytes.map .val) = .fault ∧
      ¬ Delivered 0 ⟨0, 1⟩ postNothing (postNothing.bytes.map .val) := by
  have hfault : httpReadRequestHandler 0 ⟨0, 1⟩ (postNothing.bytes.map .val) = .fault := by
    decide
  refine ⟨by constructor <;> decide +kernel, by decide +kernel, hfault, ?_⟩
  rintro ⟨msg, rest, hdone, -⟩
  rw [hfault] at hdone
  cases hdone

end Mgx
