import Mgx.HttpQuery
import Mgx.HttpRequest
import Mgx.Send

/-
  Answering an HTTP request.

  A worker thread builds the response to a message: a static file, the error
  page, or the request body echoed. The length of the body is determined three
  times: `Content-Length` is the size of the file (or of a `std::string`),
  `http_write_response` appends the body as a C string, and the send thread takes
  `strlen` of the whole response.

  Correspondence (C++ ↔ Lean), `http/mgx_http_socket.cpp`:
    results of `read` on the file             ↔ `RecvRet`
    `must_read` (misc/mgx_file.cpp)           ↔ `mustRead`
    `read_file_all` (misc/mgx_file.cpp)       ↔ `readFileAll`
    `m_mime_types`, `get_mime_type`           ↔ `mimeTypes`, `getMimeType`
    `get_extension`                           ↔ `getExtension`
    `mgx_http_response_t`                     ↔ `HttpResponse`
    `th_msg_process_func`                     ↔ `httpThMsgProcessFunc`
    what it does in the end                   ↔ `Outcome`
    what it finds besides the files           ↔ `HttpEnv`
    `c->sql->query_table("student")`          ↔ `Query.run`, in `finish`
    `http_write_response`                     ↔ `httpWriteResponse`, `sendBody`
    `rest_send_size` in `send_msg_th_func`    ↔ `payloadSize .http`

  `std::unordered_map` gives no order: `http_write_response` takes the headers in
  any order.

  What is proved: `response_framed_iff`. The response is the head followed by as
  many bytes as `Content-Length` says, the content, exactly when the lines for the
  log can be made, the query returns, the content type is known, the content has no
  NUL byte and the whole fits an `unsigned int`.
-/
namespace Mgx
open CMem

/-! ## Files -/

/-- `must_read` with `buf` stored so far, given what the `read` calls answer: its return value and
the bytes stored. `none` when it has not returned yet, or when an answer is not one the kernel gives
for what is asked. The loop of `read_uninterrupt` is the branch for `EINTR`. -/
def mustRead (size : Nat) : Bytes → List RecvRet → Option (Int × Bytes)
  | buf, [] => if buf.length < size then none else some (buf.length, buf)
  | buf, r :: rs =>
    if buf.length < size then
      match r with
      | .got bs =>
        if bs.length = 0 then some (0, buf)
        else if bs.length ≤ size - buf.length then mustRead size (buf ++ bs) rs
        else none
      | .fail .eintr => mustRead size buf rs
      | .fail _ => some (-1, buf)
    else some (buf.length, buf)

/-- `read_file_all`: line by line, so that the last line is ended too. `none`: cannot be opened. -/
def readFileAll : Option Bytes → Bytes
  | none => []
  | some content =>
    if content.isEmpty ∨ content.getLast? = some lf then content else content ++ [lf]

/-- A file that was opened: the size `fstat` reports, if it does, and the answers of `read`. -/
structure OpenFile where
  size : Option Nat
  reads : List RecvRet

/-- What the server finds around it: `m_index_path`, what `open` makes of a path, and the contents
of ./http/html/404.html. -/
structure Site where
  indexPath : Bytes
  openFile : Bytes → Option OpenFile
  page404 : Option Bytes

/-! ## Content types -/

/-- `m_mime_types`. -/
def mimeTypes : List (String × String) :=
  [(".html", "text/html"), (".htm", "text/html"), (".xml", "text/xml"), (".txt", "text/plain"),
   (".css", "text/css"), (".js", "application/javascript"), (".json", "application/json"),
   (".zip", "application/zip"), (".jpeg", "image/jpeg"), (".jpg", "image/jpeg"),
   (".png", "image/png"), (".gif", "image/gif"), (".ico", "image/x-icon"),
   (".bmp", "image/x-ms-bmp")]

/-- `get_mime_type`; `none` is the null pointer `operator[]` makes for an unknown key. -/
def getMimeType (extension : Bytes) : Option Bytes :=
  (mimeTypes.find? (fun m => ascii m.1 == extension)).map (fun m => ascii m.2)

/-- The loop of `get_extension` from the index `p` of `path` down. -/
def extensionFrom (path : Bytes) : Nat → Bytes
  | 0 => ascii ".html"
  | p + 1 => if path[p + 1]? = some 46 then path.drop (p + 1) else extensionFrom path p

/-- `get_extension`. -/
def getExtension (path : Bytes) : Bytes := extensionFrom path path.length

/-! ## The response -/

/-- `mgx_http_response_t`; `headers` in the order of assignment, `responseBody` with its NUL. -/
structure HttpResponse where
  statusLine : Bytes
  headers : List (Bytes × Bytes)
  responseBody : Bytes

/-- `std::to_string`. -/
def decimal (n : Nat) : Bytes := (Nat.toDigits 10 n).map (fun c => UInt8.ofNat c.toNat)

/-- The headers every branch of `th_msg_process_func` sets. -/
def responseHeaders (mime : Bytes) (length : Nat) : List (Bytes × Bytes) :=
  [(ascii "Server", ascii "Mgx http server"), (ascii "Connection", ascii "keep-alive"),
   (ascii "Content-Type", mime), (ascii "Content-Length", decimal length)]

/-- How `th_msg_process_func` ends: in undefined behaviour, waiting for `read`, at `out` without a
response, or with a response given to `http_write_response`. -/
inductive Outcome where
  | fault
  | waits
  | dropped
  | respond (res : HttpResponse)

/-- The path of the file for `uri`. -/
def staticFilePath (indexPath uri : Bytes) : Bytes :=
  if uri = ascii "/" then indexPath ++ uri ++ ascii "index.html" else indexPath ++ uri

/-- `new char[size + 1]()` with `content` copied to its start. -/
def responseBuf (size : Nat) (content : Bytes) : Bytes :=
  overwrite (List.replicate (size + 1) 0) 0 content

def status200 : Bytes := ascii "HTTP/1.1 200 OK"

def status404 : Bytes := ascii "HTTP/1.1 404 Not Found"

/-- The body of the 404 response. -/
def errorPage (site : Site) (uri : Bytes) : Bytes :=
  if uri ≠ ascii "/favicon.ico" then readFileAll site.page404 else []

/-- What a worker finds besides the files: what the log finds for the line of an error and for the
line of a body, the text of `errno`, and what the query meets. -/
structure HttpEnv where
  errLog : LogCtx
  errStr : Bytes
  bodyLog : LogCtx
  query : Query

/-- `mgx_log(MGX_LOG_ERR, "get file %s size error: %s", ..)` and its like. -/
def HttpEnv.logFile (env : HttpEnv) (what : Bytes) (path : Bytes) : Option LogOut :=
  env.errLog.mgxLog logErr (what ++ [0]) [.str (path ++ [0]), .str (env.errStr ++ [0])]

def sizeErrorFormat : Bytes := ascii "get file %s size error: %s"

def readErrorFormat : Bytes := ascii "read file %s error: %s"

/-- A line is logged, and what comes behind it. -/
def logged (line : Option LogOut) (rest : Outcome) : Outcome :=
  match line with
  | none => .fault
  | some _ => rest

/-- The query on `c->sql`, then `http_write_response`. -/
def finish (query : Query) (res : HttpResponse) : Outcome :=
  match query.run with
  | none => .fault
  | some _ => .respond res

/-- `Mgx_http_socket::th_msg_process_func`. -/
def httpThMsgProcessFunc (site : Site) (env : HttpEnv) (msg : HttpMsg) : Outcome :=
  match msg.httpMethod with
  | .get =>
    let path := staticFilePath site.indexPath msg.uri.1
    match site.openFile path with
    | some file =>
      match file.size with
      | none => logged (env.logFile sizeErrorFormat path) .dropped
      | some size =>
        match getMimeType (getExtension msg.uri.1) with
        | none => .fault
        | some mime =>
          match mustRead size [] file.reads with
          | none => .waits
          | some (ret, stored) =>
            if ret < 0 then logged (env.logFile readErrorFormat path) .dropped
            else
              finish env.query ⟨status200, responseHeaders mime size, responseBuf size stored⟩
    | none =>
      let page := errorPage site msg.uri.1
      finish env.query ⟨status404, responseHeaders (ascii "text/html; charset=UTF-8") page.length,
        responseBuf page.length page⟩
  | .post =>
    let body := msg.requestBody.1
    logged (env.bodyLog.mgxLog logDebug requestBodyFormat [.str (body ++ [0])])
      (match getMimeType (ascii ".json") with
      | none => .fault
      | some mime =>
        finish env.query ⟨status200, responseHeaders mime body.length, responseBuf body.length body⟩)

/-- A header as `http_write_response` writes it. -/
def writeHeader (h : Bytes × Bytes) : Bytes := h.1 ++ ascii ": " ++ h.2 ++ crlf

/-- `http_write_response`: the string `response`, the headers taken in the order `hdrs`. -/
def httpWriteResponse (res : HttpResponse) (hdrs : List (Bytes × Bytes)) : Bytes :=
  let response := res.statusLine
  let response :=
    if (response.drop (response.length - 2 - 1)).take 2 ≠ crlf then response ++ crlf else response
  response ++ hdrs.flatMap writeHeader ++ crlf ++ cstr res.responseBody

/-- What lies behind the message header in the buffer given to `send_msg`. -/
def sendBody (res : HttpResponse) (hdrs : List (Bytes × Bytes)) : Bytes :=
  httpWriteResponse res hdrs ++ [0]

/-! ## Framing -/

/-- Status line, headers and the empty line. -/
def httpHead (statusLine : Bytes) (hdrs : List (Bytes × Bytes)) : Bytes :=
  statusLine ++ crlf ++ hdrs.flatMap writeHeader ++ crlf

/-- The response is a head and then `content`, whose length is the one declared and the one that is
left of `rest_send_size` after the head. -/
structure Framed (res : HttpResponse) (hdrs : List (Bytes × Bytes)) (content : Bytes) : Prop where
  layout : httpWriteResponse res hdrs = httpHead res.statusLine hdrs ++ content
  declared : (ascii "Content-Length", decimal content.length) ∈ hdrs
  sent : payloadSize .http (sendBody res hdrs) =
    (httpHead res.statusLine hdrs).length + content.length

/-- The length of a head with these headers. -/
def headSize (statusLine mime : Bytes) (length : Nat) : Nat :=
  statusLine.length + 2 + ((responseHeaders mime length).map fun h => (writeHeader h).length).sum + 2

/-- What the response is to carry: the file if it was read whole, the error page if there is no
file, or the body of the request. -/
def responseContent (site : Site) (msg : HttpMsg) : Option Bytes :=
  match msg.httpMethod with
  | .get =>
    match site.openFile (staticFilePath site.indexPath msg.uri.1) with
    | some file =>
      file.size.bind fun size =>
        match mustRead size [] file.reads with
        | some (ret, stored) => if ret = size then some stored else none
        | none => none
    | none => some (errorPage site msg.uri.1)
  | .post => some msg.requestBody.1

/-- The content type of that, where the server knows one. -/
def responseType (site : Site) (msg : HttpMsg) : Option Bytes :=
  match msg.httpMethod with
  | .get =>
    match site.openFile (staticFilePath site.indexPath msg.uri.1) with
    | some _ => getMimeType (getExtension msg.uri.1)
    | none => some (ascii "text/html; charset=UTF-8")
  | .post => getMimeType (ascii ".json")

/-- The status line for it. -/
def responseStatus (site : Site) (msg : HttpMsg) : Bytes :=
  match msg.httpMethod with
  | .get =>
    match site.openFile (staticFilePath site.indexPath msg.uri.1) with
    | some _ => status200
    | none => status404
  | .post => status200

/-- A read that returns `size` has stored `size` bytes. -/
theorem mustRead_length {size : Nat} {rs : List RecvRet} {buf stored : Bytes}
    (hbuf : buf.length ≤ size) (h : mustRead size buf rs = some ((size : Int), stored)) :
    stored.length = size := by
  induction rs generalizing buf with
  | nil =>
    rw [mustRead] at h
    split at h
    · cases h
    · simp only [Option.some.injEq, Prod.mk.injEq] at h
      obtain ⟨hret, rfl⟩ := h
      omega
  | cons r rs ih =>
    unfold mustRead at h
    split at h
    · rename_i hlt
      split at h
      · split at h
        · -- end of file: 0 is less than the size
          simp only [Option.some.injEq, Prod.mk.injEq] at h
          omega
        · split at h
          · refine ih ?_ h
            rw [List.length_append]; omega
          · cases h
      · exact ih hbuf h
      · simp only [Option.some.injEq, Prod.mk.injEq] at h
        omega
    · simp only [Option.some.injEq, Prod.mk.injEq] at h
      obtain ⟨hret, rfl⟩ := h
      omega

/-- A buffer that the content fills ends in one NUL. -/
theorem responseBuf_length (content : Bytes) : responseBuf content.length content = content ++ [0] := by
  simp [responseBuf, overwrite]

/-- The line for a body can be logged: it is not, or no directive in it takes an argument. -/
def HttpEnv.LogsBody (env : HttpEnv) (msg : HttpMsg) : Prop :=
  msg.httpMethod = .post → env.bodyLog.log.logLevel < logDebug ∨
    env.bodyLog.TakesNone logDebug debugTag (ascii "request_body: " ++ msg.requestBody.1)

theorem requestBody_isSome_iff (x : LogCtx) (body : CStr) :
    (x.mgxLog logDebug requestBodyFormat [.str (body.1 ++ [0])]).isSome ↔
      x.log.logLevel < logDebug ∨ x.TakesNone logDebug debugTag (ascii "request_body: " ++ body.1) := by
  have hformats := requestBody_formats body.2
  rw [List.append_nil] at hformats
  exact LogCtx.mgxLog_isSome_iff logTag_debug hformats

theorem finish_respond_iff (query : Query) (res res' : HttpResponse) :
    finish query res = .respond res' ↔ query.Returns ∧ res = res' := by
  rw [← query.run_isSome_iff, finish]
  cases query.run <;> simp

theorem logged_respond_iff (line : Option LogOut) (rest : Outcome) (res : HttpResponse) :
    logged line rest = .respond res ↔ line.isSome ∧ rest = .respond res := by
  cases line <;> simp [logged]

/-- What the server answers when there is something to answer with. -/
theorem httpThMsgProcessFunc_respond_iff {site : Site} {env : HttpEnv} {msg : HttpMsg}
    {content : Bytes} (h : responseContent site msg = some content) (res : HttpResponse) :
    httpThMsgProcessFunc site env msg = .respond res ↔ env.LogsBody msg ∧ env.query.Returns ∧
      ∃ mime, responseType site msg = some mime ∧
        res = ⟨responseStatus site msg, responseHeaders mime content.length, content ++ [0]⟩ := by
  unfold responseContent at h
  unfold httpThMsgProcessFunc responseType responseStatus HttpEnv.LogsBody
  cases hm : msg.httpMethod with
  | post =>
    simp only [hm, Option.some.injEq] at h
    subst h
    simp only [logged_respond_iff, requestBody_isSome_iff, responseBuf_length, forall_const]
    cases getMimeType (ascii ".json") with
    | none => simp
    | some mime => simp [finish_respond_iff, eq_comm]
  | get =>
    simp only [hm] at h
    simp only [reduceCtorEq, false_implies, true_and]
    cases hfile : site.openFile (staticFilePath site.indexPath msg.uri.1) with
    | none =>
      simp only [hfile, Option.some.injEq] at h
      subst h
      simp [responseBuf_length, finish_respond_iff, eq_comm]
    | some file =>
      simp only [hfile] at h
      obtain ⟨size, hsize, hread⟩ := Option.bind_eq_some_iff.mp h
      cases hmust : mustRead size [] file.reads with
      | none => simp [hmust] at hread
      | some p =>
        obtain ⟨ret, stored⟩ := p
        simp only [hmust] at hread
        obtain ⟨rfl, hstored⟩ := Option.ite_none_right_eq_some.mp hread
        obtain rfl : stored = content := Option.some.inj hstored
        obtain rfl := mustRead_length (Nat.zero_le _) hmust
        have hpos : ¬ ((stored.length : Int) < 0) := by omega
        simp only [hsize]
        cases getMimeType (getExtension msg.uri.1) with
        | none => simp
        | some mime =>
          simp only [hmust, if_neg hpos, responseBuf_length, finish_respond_iff,
            Option.some.injEq, exists_eq_left', eq_comm]

/-! ## The head -/

theorem digit_ne_nul {c : Char} (h : c.isDigit = true) : UInt8.ofNat c.toNat ≠ 0 := by
  have hc : 48 ≤ c.toNat ∧ c.toNat ≤ 57 := by
    simpa [Char.isDigit, UInt32.le_iff_toNat_le] using h
  intro h0
  have := congrArg UInt8.toNat h0
  rw [UInt8.toNat_ofNat', UInt8.toNat_zero] at this
  omega

theorem nul_notMem_decimal (n : Nat) : (0 : UInt8) ∉ decimal n := by
  intro h
  obtain ⟨c, hc, h0⟩ := List.mem_map.mp h
  exact digit_ne_nul (Nat.isDigit_of_mem_toDigits (by decide) (by decide) hc) h0

/-- No content type has a NUL byte. -/
theorem nul_notMem_getMimeType {extension mime : Bytes} (h : getMimeType extension = some mime) :
    (0 : UInt8) ∉ mime := by
  have htable : ∀ m ∈ mimeTypes, (0 : UInt8) ∉ ascii m.2 := by decide
  obtain ⟨m, hm, rfl⟩ := Option.map_eq_some_iff.mp h
  exact htable m (List.mem_of_find?_eq_some hm)

theorem nul_notMem_responseType {site : Site} {msg : HttpMsg} {mime : Bytes}
    (h : responseType site msg = some mime) : (0 : UInt8) ∉ mime := by
  unfold responseType at h
  split at h
  · split at h
    · exact nul_notMem_getMimeType h
    · cases h
      decide
  · exact nul_notMem_getMimeType h

/-- The head has no NUL byte where the status line and the content type have none. -/
theorem nul_notMem_httpHead {statusLine mime : Bytes} (hs : (0 : UInt8) ∉ statusLine)
    (hm : (0 : UInt8) ∉ mime) {n : Nat} {hdrs : List (Bytes × Bytes)}
    (h : hdrs.Perm (responseHeaders mime n)) : (0 : UInt8) ∉ httpHead statusLine hdrs := by
  have hall : ∀ x ∈ responseHeaders mime n, (0 : UInt8) ∉ writeHeader x := by
    have hd := nul_notMem_decimal n
    have h₁ : (0 : UInt8) ∉ writeHeader (ascii "Server", ascii "Mgx http server") := by decide
    have h₂ : (0 : UInt8) ∉ writeHeader (ascii "Connection", ascii "keep-alive") := by decide
    have h₃ : (0 : UInt8) ∉ ascii "Content-Type" ++ ascii ": " := by decide
    have h₄ : (0 : UInt8) ∉ ascii "Content-Length" ++ ascii ": " := by decide
    have h₅ : (0 : UInt8) ∉ crlf := by decide
    simp only [responseHeaders, List.forall_mem_cons]
    refine ⟨h₁, h₂, ?_, ?_, by simp⟩
    · simp only [writeHeader, List.mem_append, not_or] at h₃ ⊢
      exact ⟨⟨h₃, hm⟩, h₅⟩
    · simp only [writeHeader, List.mem_append, not_or] at h₄ ⊢
      exact ⟨⟨h₄, hd⟩, h₅⟩
  have hcrlf : (0 : UInt8) ∉ crlf := by decide
  simp only [httpHead, List.mem_append, List.mem_flatMap, not_or, not_exists, not_and]
  exact ⟨⟨⟨hs, hcrlf⟩, fun x hx => hall x (h.mem_iff.mp hx)⟩, hcrlf⟩

/-- The order of the headers does not matter for its length. -/
theorem length_httpHead {statusLine mime : Bytes} {n : Nat} {hdrs : List (Bytes × Bytes)}
    (h : hdrs.Perm (responseHeaders mime n)) :
    (httpHead statusLine hdrs).length = headSize statusLine mime n := by
  have hperm := (h.flatMap_right writeHeader).length_eq
  simp only [httpHead, headSize, List.length_append, hperm, List.length_flatMap]
  rfl

/-! ## The response -/

theorem responseStatus_spec (site : Site) (msg : HttpMsg) :
    (0 : UInt8) ∉ responseStatus site msg ∧
      ((responseStatus site msg).drop ((responseStatus site msg).length - 2 - 1)).take 2 ≠ crlf := by
  unfold responseStatus
  split
  · split <;> decide
  · decide

/-- The response to content `x` is framed in every order of its headers exactly when `x` has no NUL
byte and everything fits an `unsigned int`. -/
theorem framed_iff {statusLine mime x : Bytes} (hs : (0 : UInt8) ∉ statusLine)
    (hline : (statusLine.drop (statusLine.length - 2 - 1)).take 2 ≠ crlf) (hm : (0 : UInt8) ∉ mime)
    {hdrs : List (Bytes × Bytes)} (h : hdrs.Perm (responseHeaders mime x.length)) :
    Framed ⟨statusLine, responseHeaders mime x.length, x ++ [0]⟩ hdrs x ↔
      (0 : UInt8) ∉ x ∧ headSize statusLine mime x.length + x.length < 2 ^ 32 := by
  have hwrite : httpWriteResponse ⟨statusLine, responseHeaders mime x.length, x ++ [0]⟩ hdrs =
      httpHead statusLine hdrs ++ cstr (x ++ [0]) := by
    simp only [httpWriteResponse, if_pos hline, httpHead]
  have hhead := nul_notMem_httpHead hs hm h
  have hlen : strlen (sendBody ⟨statusLine, responseHeaders mime x.length, x ++ [0]⟩ hdrs) =
      headSize statusLine mime x.length + (cstr (x ++ [0])).length := by
    have hnul : (0 : UInt8) ∉ httpHead statusLine hdrs ++ cstr (x ++ [0]) := by
      simp only [List.mem_append, not_or]
      exact ⟨hhead, not_mem_cstr _⟩
    rw [sendBody, hwrite, strlen, cstr_append_nul hnul, List.length_append, length_httpHead h]
  constructor
  · rintro ⟨hlayout, -, hsent⟩
    rw [hwrite] at hlayout
    have hcstr : cstr (x ++ [0]) = x := List.append_cancel_left hlayout
    have hx : (0 : UInt8) ∉ x := by
      rw [← hcstr]
      exact not_mem_cstr _
    rw [payloadSize, hlen, hcstr, length_httpHead h] at hsent
    refine ⟨hx, ?_⟩
    rw [← hsent]
    exact Nat.mod_lt _ (by decide)
  · rintro ⟨hx, hsize⟩
    have hcstr : cstr (x ++ [0]) = x := cstr_append_nul hx []
    refine ⟨by rw [hwrite, hcstr], ?_, ?_⟩
    · exact h.mem_iff.mpr (by simp [responseHeaders])
    · rw [payloadSize, hlen, hcstr, length_httpHead h, Nat.mod_eq_of_lt hsize]

/-- **Framing.** The response to a message is given to the send path, framed in every order of its
headers, exactly when the line for the body of a POST can be logged, the query returns, the content
type is known, the content has no NUL byte, and head and content fit an `unsigned int`. -/
theorem response_framed_iff {site : Site} {env : HttpEnv} {msg : HttpMsg} {content : Bytes}
    (h : responseContent site msg = some content) :
    (∃ res, httpThMsgProcessFunc site env msg = .respond res ∧
        ∀ hdrs : List (Bytes × Bytes), hdrs.Perm res.headers → Framed res hdrs content) ↔
      env.LogsBody msg ∧ env.query.Returns ∧ (0 : UInt8) ∉ content ∧
        ∃ mime, responseType site msg = some mime ∧
          headSize (responseStatus site msg) mime content.length + content.length < 2 ^ 32 := by
  obtain ⟨hs, hline⟩ := responseStatus_spec site msg
  constructor
  · intro ⟨res, hres, hframed⟩
    obtain ⟨hlogs, hreturns, mime, hmime, rfl⟩ := (httpThMsgProcessFunc_respond_iff h res).mp hres
    have hm := nul_notMem_responseType hmime
    obtain ⟨hx, hsize⟩ :=
      (framed_iff hs hline hm (List.Perm.refl _)).mp (hframed _ (List.Perm.refl _))
    exact ⟨hlogs, hreturns, hx, mime, hmime, hsize⟩
  · intro ⟨hlogs, hreturns, hx, mime, hmime, hsize⟩
    have hm := nul_notMem_responseType hmime
    refine ⟨_, (httpThMsgProcessFunc_respond_iff h _).mpr ⟨hlogs, hreturns, mime, hmime, rfl⟩, ?_⟩
    exact fun hdrs hperm => (framed_iff hs hline hm hperm).mpr ⟨hx, hsize⟩

/-- A site with one page at /, of the bytes `page`, read in one go. -/
def onePage (page : Bytes) : Site where
  indexPath := ascii "./html"
  openFile := fun path =>
    if path = ascii "./html/index.html" then some ⟨some page.length, [.got page]⟩ else none
  page404 := none

/-- The message for `GET /`. -/
def getRootMsg : HttpMsg := ⟨⟨0, 1⟩, .get, ⟨ascii "/", by decide⟩, .of []⟩

/-- Nothing is logged, and the query returns. -/
def quietEnv : HttpEnv := ⟨quietLog.ctx, [], quietLog.ctx, quietQuery⟩

/-- The log as it is shipped: debug lines too, and to stderr as well. -/
def shippedEnv : HttpEnv := { quietEnv with errLog := debugLog.ctx, bodyLog := debugLog.ctx }

/-- A page, and a body that is echoed. -/
theorem response_framed_iff_page :
    (∃ res, httpThMsgProcessFunc (onePage (ascii "<p>")) shippedEnv getRootMsg = .respond res ∧
        ∀ hdrs : List (Bytes × Bytes), hdrs.Perm res.headers → Framed res hdrs (ascii "<p>")) ∧
    ∃ res, httpThMsgProcessFunc (onePage []) shippedEnv
        { getRootMsg with httpMethod := .post, requestBody := .of (ascii "abc") } = .respond res ∧
      ∀ hdrs : List (Bytes × Bytes), hdrs.Perm res.headers → Framed res hdrs (ascii "abc") := by
  constructor
  · refine (response_framed_iff (by decide)).mpr
      ⟨nofun, quietQuery_returns, by decide, ascii "text/html", ?_, ?_⟩
    · decide
    · decide
  · refine (response_framed_iff (by decide)).mpr
      ⟨fun _ => .inr ?_, quietQuery_returns, by decide, ascii "application/json", ?_, ?_⟩
    · exact LogCtx.takesNone_of_plain logTag_debug (by decide)
    · decide
    · decide

/-- A file with a NUL byte: three bytes are declared, the first is sent. -/
theorem response_not_framed :
    responseContent (onePage [97, 0, 98]) getRootMsg = some [97, 0, 98] ∧
      ∃ res, httpThMsgProcessFunc (onePage [97, 0, 98]) shippedEnv getRootMsg = .respond res ∧
        (ascii "Content-Length", ascii "3") ∈ res.headers ∧
        httpWriteResponse res res.headers = httpHead res.statusLine res.headers ++ [97] ∧
        ¬ Framed res res.headers [97, 0, 98] := by
  have hcontent : responseContent (onePage [97, 0, 98]) getRootMsg = some [97, 0, 98] := by
    decide
  have htype : responseType (onePage [97, 0, 98]) getRootMsg = some (ascii "text/html") := by
    decide
  have hrespond : httpThMsgProcessFunc _ shippedEnv _ = .respond _ :=
    (httpThMsgProcessFunc_respond_iff hcontent _).mpr ⟨nofun, quietQuery_returns, _, htype, rfl⟩
  refine ⟨hcontent, _, hrespond, ?_, ?_, ?_⟩
  · decide
  · decide
  · intro hframed
    exact absurd hframed.layout (by decide)

end Mgx
