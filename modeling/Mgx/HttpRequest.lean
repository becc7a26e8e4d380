import Mgx.Lib.Inflow
import Mgx.Request

/-
  The receive path in HTTP mode.

  One call of the read handler reads one request from the socket, all of it: the
  request line and the header section byte by byte, then the body. Nothing of an
  unfinished request outlives the call, as `mgx_http_request_t` is a local
  variable of the handler.

  Correspondence (C++ ↔ Lean), `http/mgx_http_socket.cpp`:
    what the socket holds, `recv`                ↔ `List SockItem`, `Inflow.read`
    `recv_process`                               ↔ `recvStopped` where it returns -1
    how a function that receives ends            ↔ `HttpRead`
    `recv_buf[len++] = ch`                       ↔ `recvBufStore`
    the loop of the first two readers            ↔ `httpReadLoop`
    `http_read_request_line`, `.._head`          ↔ `httpReadRequestLine`, `httpReadRequestHead`
    `http_parse_request_line`, `.._head`         ↔ `httpParseRequestLine`, `httpParseRequestHead`
    `strim` (include/mgx_string.h)               ↔ `strim`
    `http_read_request_body`                     ↔ `httpReadRequestBody`
    `Mgx_http_socket::_read_request_handler`     ↔ `httpReadRequestHandler`
    the buffer handed to the thread pool         ↔ `HttpMsg`
    one call after the other, while there is     ↔ `serve`
    something to read (EPOLLIN, level-triggered)

  `http_version`, `args` and `url` are not modelled: nothing reads them. The
  allocations are taken to succeed.
-/
namespace Mgx
open CMem Inflow

def cr : UInt8 := 13

def lf : UInt8 := 10

def crlf : Bytes := [cr, lf]

/-- The bytes of a string literal. -/
def ascii (s : String) : Bytes := s.toList.map (fun c => UInt8.ofNat c.toNat)

/-- `sizeof(recv_buf)`. -/
def recvBufSize : Nat := 1024 * 8

/-- The methods that `http_parse_request_line` knows. -/
inductive HttpMethod where
  | get
  | post
  deriving DecidableEq, Repr

def HttpMethod.str : HttpMethod → Bytes
  | .get => ascii "GET"
  | .post => ascii "POST"

/-- What the socket holds. A `recv` that stores nothing found the peer gone (`none`) or failed. -/
abbrev SockItem := Item UInt8 (Option Errno)

/-- The release `recv_process` makes before it returns -1. -/
def recvStopped : Option Errno → Option Release
  | none => (recvProcess (.got [])).2
  | some e => (recvProcess (.fail e)).2

/-- How a function that receives from the socket ends: in undefined behaviour (or an exception that
nobody catches), by a `recv_process` that returned -1, or with a value. The rest is what the socket
still holds. -/
inductive HttpRead (α : Type) where
  | fault
  | blocked (release : Option Release) (rest : List SockItem)
  | done (a : α) (rest : List SockItem)
  deriving DecidableEq

def HttpRead.bind {α β : Type} (x : HttpRead α) (f : α → List SockItem → HttpRead β) : HttpRead β :=
  match x with
  | .fault => .fault
  | .blocked release rest => .blocked release rest
  | .done a rest => f a rest

@[simp] theorem HttpRead.bind_fault {α β : Type} (f : α → List SockItem → HttpRead β) :
    HttpRead.fault.bind f = .fault := rfl

@[simp] theorem HttpRead.bind_blocked {α β : Type} (release : Option Release)
    (rest : List SockItem) (f : α → List SockItem → HttpRead β) :
    (HttpRead.blocked release rest).bind f = .blocked release rest := rfl

@[simp] theorem HttpRead.bind_done {α β : Type} (a : α) (rest : List SockItem)
    (f : α → List SockItem → HttpRead β) : (HttpRead.done a rest).bind f = f a rest := rfl

/-! ## The readers of the request line and of the header section -/

/-- `recv_buf[len++] = b` for the bytes `x`, then `next`; undefined past the end of the array. -/
def recvBufStore {α : Type} (buf x : Bytes) (next : Bytes → HttpRead α) : HttpRead α :=
  if buf.length + x.length ≤ recvBufSize then next (buf ++ x) else .fault

/-- The loop of `http_read_request_line` and `http_read_request_head`: one item a turn, `afterCr`
when the `recv` in progress is the one after a CR. After CR LF, `atEnd` looks at what the socket
holds and says whether the loop ends, and where. -/
def httpReadLoop (atEnd : List SockItem → Option (List SockItem)) :
    Bool → Bytes → List SockItem → HttpRead Bytes
  | _, _, [] => .blocked none []
  | afterCr, buf, .gap :: l => httpReadLoop atEnd afterCr buf l
  | _, _, .stop e :: l => .blocked (recvStopped e) l
  | false, buf, .val ch :: l =>
    if ch = cr then httpReadLoop atEnd true buf l
    else recvBufStore buf [ch] fun buf => httpReadLoop atEnd false buf l
  | true, buf, .val ch :: l =>
    if ch = lf then
      match atEnd l with
      | some rest => .done buf rest
      | none => recvBufStore buf [ch] fun buf => httpReadLoop atEnd false buf l
    else recvBufStore buf [cr, ch] fun buf => httpReadLoop atEnd false buf l

/-- `http_read_request_line`: what it stores in `request_line`, whose length it returns. -/
def httpReadRequestLine : List SockItem → HttpRead Bytes := httpReadLoop some false []

/-- The two-byte peek of `http_read_request_head`, and the `recv` that takes the two bytes. `strcmp`
compares `buf` with three bytes: `behind` is what lies behind `buf`. -/
def peekCrlf (behind : UInt8) : List SockItem → Option (List SockItem)
  | .val a :: .val b :: l => if a = cr ∧ b = lf ∧ behind = 0 then some l else none
  | _ => none

/-- `http_read_request_head`: what it stores in `request_head`, whose length it returns. -/
def httpReadRequestHead (behind : UInt8) : List SockItem → HttpRead Bytes :=
  httpReadLoop (peekCrlf behind) false []

/-- `recv_process` for at most `n` bytes. -/
def recvN (n : Nat) (l : List SockItem) : HttpRead Bytes :=
  match Inflow.read n l with
  | (.ok x, rest) => .done x rest
  | (.error none, rest) => .blocked none rest
  | (.error (some e), rest) => .blocked (recvStopped e) rest

@[simp] theorem recvN_gap (n : Nat) (l : List SockItem) : recvN n (.gap :: l) = recvN n l := rfl

@[simp] theorem recvN_val (b : UInt8) (l : List SockItem) : recvN 1 (.val b :: l) = .done [b] l :=
  rfl

/-- The `recv` after a CR. -/
theorem httpReadLoop_afterCr (atEnd : List SockItem → Option (List SockItem)) (buf : Bytes) :
    ∀ l, httpReadLoop atEnd true buf l = (recvN 1 l).bind fun x l =>
      if x = [lf] then
        match atEnd l with
        | some rest => .done buf rest
        | none => recvBufStore buf x fun buf => httpReadLoop atEnd false buf l
      else recvBufStore buf (cr :: x) fun buf => httpReadLoop atEnd false buf l
  | [] => rfl
  | .gap :: l => by
    rw [httpReadLoop, recvN_gap]
    exact httpReadLoop_afterCr atEnd buf l
  | .stop e :: l => rfl
  | .val ch :: l => by
    simp only [httpReadLoop, recvN_val, HttpRead.bind_done, List.cons.injEq, and_true]

/-- One turn of the loop as the source has it, `recv` by `recv`. -/
theorem httpReadLoop_turn (atEnd : List SockItem → Option (List SockItem)) (buf : Bytes) :
    ∀ l, httpReadLoop atEnd false buf l = (recvN 1 l).bind fun x l =>
      if x = [cr] then
        (recvN 1 l).bind fun x l =>
          if x = [lf] then
            match atEnd l with
            | some rest => .done buf rest
            | none => recvBufStore buf x fun buf => httpReadLoop atEnd false buf l
          else recvBufStore buf (cr :: x) fun buf => httpReadLoop atEnd false buf l
      else recvBufStore buf x fun buf => httpReadLoop atEnd false buf l
  | [] => rfl
  | .gap :: l => by
    rw [httpReadLoop, recvN_gap]
    exact httpReadLoop_turn atEnd buf l
  | .stop e :: l => rfl
  | .val ch :: l => by
    simp only [httpReadLoop, recvN_val, HttpRead.bind_done, List.cons.injEq, and_true,
      httpReadLoop_afterCr]

/-! ## The parsers -/

/-- `http_parse_request_line`: `some none` where it returns false, `none` where the URI it computes
starts from a null pointer or has a negative length. -/
def httpParseRequestLine (requestLine : Bytes) : Option (Option (HttpMethod × CStr)) :=
  let line := CStr.of requestLine
  let uri (method : HttpMethod) : Option (Option (HttpMethod × CStr)) :=
    (strstr (ascii "HTTP/") line.1).bind fun p =>
      if method.str.length + 2 ≤ p then
        some (some (method, line.substr (method.str.length + 1) (p - method.str.length - 2)))
      else none
  if HttpMethod.get.str.isPrefixOf line.1 then uri .get
  else if HttpMethod.post.str.isPrefixOf line.1 then uri .post
  else some none

/-- `strim`: without the spaces at both ends. -/
def strim (s : Bytes) : Bytes := (s.dropWhile (· == 32)).rdropWhile (· == 32)

/-- A header line split at its first colon. Without one, `index` is -1 and the line is the key. -/
def splitHeader (line : Bytes) : Bytes × Bytes :=
  let key := line.takeWhile (· != 58)
  (strim key, strim (line.drop (key.length + 1)))

/-- The map `headers`. -/
abbrev Headers := Bytes → Option Bytes

/-- `headers[strim(key)] = strim(val)`. -/
def putHeader (headers : Headers) (line : Bytes) : Headers :=
  Function.update headers (splitHeader line).1 (some (splitHeader line).2)

/-- `http_parse_request_head`. -/
def httpParseRequestHead (requestHead : Bytes) : Headers :=
  (tokens (crlf.contains ·) (cstr requestHead)).foldl putHeader (fun _ => none)

/-! ## The body reader -/

/-- The loop of `http_read_request_body`, into an allocation of `cap` bytes. -/
def httpBodyLoop (cap contentLen : Nat) : Bytes → List SockItem → HttpRead Bytes
  | buf, [] => if buf.length < contentLen then .blocked none [] else .done buf []
  | buf, .gap :: l =>
    if buf.length < contentLen then httpBodyLoop cap contentLen buf l else .done buf (.gap :: l)
  | buf, .stop e :: l =>
    if buf.length < contentLen then .blocked (recvStopped e) l else .done buf (.stop e :: l)
  | buf, .val ch :: l =>
    if buf.length < contentLen then
      if buf.length < cap then httpBodyLoop cap contentLen (buf ++ [ch]) l else .fault
    else .done buf (.val ch :: l)

/-- Bytes that are there and still missing can be taken in one go. -/
theorem httpBodyLoop_available {cap contentLen : Nat} (hcap : contentLen ≤ cap) :
    ∀ (k : Nat) (l : List SockItem) (buf : Bytes), buf.length + k ≤ contentLen →
      httpBodyLoop cap contentLen buf l =
        httpBodyLoop cap contentLen (buf ++ (available k l).1) (available k l).2
  | k + 1, .val ch :: l, buf, hk => by
    have hlt : buf.length < contentLen := by omega
    have hroom : buf.length < cap := by omega
    have hk' : (buf ++ [ch]).length + k ≤ contentLen := by
      rw [List.length_append, List.length_singleton]; omega
    rw [httpBodyLoop, if_pos hlt, if_pos hroom, httpBodyLoop_available hcap k l _ hk']
    simp only [available, List.append_assoc, List.singleton_append]
  | 0, l, buf, _ => by simp [available]
  | k + 1, [], buf, _ => by simp [available]
  | k + 1, .gap :: l, buf, _ => by simp [available]
  | k + 1, .stop e :: l, buf, _ => by simp [available]

/-- One turn of the loop as the source has it, the `recv` asking for all that is missing, as long as
`content_len + 1` does not wrap. -/
theorem httpBodyLoop_turn {cap contentLen : Nat} (hcap : contentLen ≤ cap) :
    ∀ (l : List SockItem) (buf : Bytes), httpBodyLoop cap contentLen buf l =
      if buf.length < contentLen then
        (recvN (contentLen - buf.length) l).bind fun x l => httpBodyLoop cap contentLen (buf ++ x) l
      else .done buf l
  | [], buf => by rw [httpBodyLoop]; rfl
  | .gap :: l, buf => by
    rw [httpBodyLoop]
    split
    · rename_i h
      rw [recvN_gap, httpBodyLoop_turn hcap l buf, if_pos h]
    · rfl
  | .stop e :: l, buf => by rw [httpBodyLoop]; rfl
  | .val ch :: l, buf => by
    split
    · rename_i h
      rw [httpBodyLoop_available hcap (contentLen - buf.length) _ _ (by omega)]
      rfl
    · rename_i h
      rw [httpBodyLoop, if_neg h]

/-- `http_read_request_body`: its return value and `request_body` (`none` for null). `content_len`
and the size it allocates are `unsigned int`; `stoi` may throw. -/
def httpReadRequestBody (headers : Headers) (l : List SockItem) : HttpRead (Nat × Option Bytes) :=
  match headers (ascii "Content-Length") with
  | none => .done (1, none) l
  | some val =>
    match stoi val with
    | none => .fault
    | some n =>
      let contentLen := (n % 2 ^ 32).toNat
      (httpBodyLoop ((contentLen + 1) % 2 ^ 32) contentLen [] l).bind fun body l =>
        .done (contentLen, some body) l

/-! ## The handler -/

/-- The buffer `_read_request_handler` hands to the thread pool: the message header with the method
and the URI, then the body as a string. -/
structure HttpMsg where
  hdr : MsgHdr
  httpMethod : HttpMethod
  uri : CStr
  requestBody : CStr
  deriving DecidableEq

/-- The message built for a request; `none` where `strcpy` reads from a null pointer. -/
def httpMsg (hdr : MsgHdr) (method : HttpMethod) (uri : CStr) (requestBody : Option Bytes) :
    Option HttpMsg :=
  match method with
  | .get => some ⟨hdr, .get, uri, .of []⟩
  | .post => requestBody.map fun body => ⟨hdr, .post, uri, .of body⟩

/-- `Mgx_http_socket::_read_request_handler`: the message it hands on, if any. `hdr` is the
connection and its `m_cur_seq`. -/
def httpReadRequestHandler (behind : UInt8) (hdr : MsgHdr) (l : List SockItem) :
    HttpRead (Option HttpMsg) :=
  (httpReadRequestLine l).bind fun requestLine l =>
    if requestLine.length = 0 then .done none l else
    match httpParseRequestLine requestLine with
    | none => .fault
    | some none => .done none l
    | some (some (method, uri)) =>
      (httpReadRequestHead behind l).bind fun requestHead l =>
        if requestHead.length = 0 then .done none l else
        (httpReadRequestBody (httpParseRequestHead requestHead) l).bind fun (ret, requestBody) l =>
          if ret = 0 then .done none l else
          match httpMsg hdr method uri requestBody with
          | none => .fault
          | some msg => .done (some msg) l

/-- What the handler calls of a connection did: the messages handed to the thread pool, in order, and
whether one of the calls ran into undefined behaviour. -/
structure Served where
  msgs : List HttpMsg
  fault : Bool
  deriving DecidableEq

/-- Undefined behaviour, with nothing handed on before it. -/
def Served.crash : Served := ⟨[], true⟩

/-- One message before the others. -/
def Served.cons (msg : HttpMsg) (s : Served) : Served := { s with msgs := msg :: s.msgs }

/-- At most `n` calls of the handler, while the socket holds something and the connection is not
given up. -/
def serveN (behind : UInt8) (hdr : MsgHdr) : Nat → List SockItem → Served
  | 0, _ => ⟨[], false⟩
  | _ + 1, [] => ⟨[], false⟩
  | n + 1, i :: l =>
    match httpReadRequestHandler behind hdr (i :: l) with
    | .fault => .crash
    | .blocked (some _) _ => ⟨[], false⟩
    | .blocked none rest => serveN behind hdr n rest
    | .done none rest => serveN behind hdr n rest
    | .done (some msg) rest => (serveN behind hdr n rest).cons msg

/-- The handler calls until the socket is drained: every call takes an item at least. -/
def serve (behind : UInt8) (hdr : MsgHdr) (l : List SockItem) : Served :=
  serveN behind hdr l.length l

end Mgx
