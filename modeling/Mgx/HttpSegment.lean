import Mgx.Strings

/-
  A request that arrives in pieces.

  A request is what the grammar of HTTP makes of a method, a URI, a version,
  header fields and a body (`HttpRequest.bytes`). `HttpRequest.ArrivesIn`
  describes how its bytes may reach the socket so that the handler call that
  begins it finds it whole: no read would block, and the empty line is there
  when it is peeked at.

  What is proved: `httpReadRequestHandler_uncut`. What the handler makes of such
  a request is a function of the request (`HttpRequest.handled`), and what it
  leaves in the socket is what came after.
-/
namespace Mgx
open CMem Inflow

/-! ## Requests -/

/-- Bytes that may stand in a request line or in a header line. -/
def Text (s : Bytes) : Prop := ∀ b ∈ s, b ≠ cr ∧ b ≠ lf ∧ b ≠ 0

instance (s : Bytes) : Decidable (Text s) := inferInstanceAs (Decidable (∀ b ∈ s, _))

/-- The parts of a request; header fields as name and value. -/
structure HttpRequest where
  method : HttpMethod
  uri : Bytes
  version : Bytes
  headers : List (Bytes × Bytes)
  body : Bytes

def HttpRequest.requestLine (r : HttpRequest) : Bytes :=
  r.method.str ++ (ascii " " ++ (r.uri ++ (ascii " " ++ (ascii "HTTP/" ++ r.version))))

def headerLine (h : Bytes × Bytes) : Bytes := h.1 ++ 58 :: h.2

def headerLines (hs : List (Bytes × Bytes)) : Bytes := (hs.map headerLine).flatMap (· ++ crlf)

/-- The request as it is sent. -/
def HttpRequest.bytes (r : HttpRequest) : Bytes :=
  r.requestLine ++ crlf ++ headerLines r.headers ++ crlf ++ r.body

def lower (b : UInt8) : UInt8 := if 65 ≤ b ∧ b ≤ 90 then b + 32 else b

def contentLength : Bytes := ascii "Content-Length"

/-- Header names do not depend on case. -/
def IsContentLength (name : Bytes) : Prop := name.map lower = contentLength.map lower

instance (name : Bytes) : Decidable (IsContentLength name) := inferInstanceAs (Decidable (_ = _))

/-- The value is the decimal number `n`, spaces around it apart. -/
structure Declares (value : Bytes) (n : Nat) : Prop where
  ne_nil : strim value ≠ []
  digits : ∀ d ∈ strim value, isDigit d = true
  val : digitsVal (strim value) = n

instance (value : Bytes) (n : Nat) : Decidable (Declares value n) :=
  decidable_of_iff (strim value ≠ [] ∧ (∀ d ∈ strim value, isDigit d = true) ∧
      digitsVal (strim value) = n)
    ⟨fun ⟨h₁, h₂, h₃⟩ => ⟨h₁, h₂, h₃⟩, fun h => ⟨h.ne_nil, h.digits, h.val⟩⟩

/-- A complete request: no line ends inside a line, no spaces or colons in a name, and a body, if
there is one, of the length that `Content-Length` declares. -/
structure HttpRequest.WellFormed (r : HttpRequest) : Prop where
  uri : Text r.uri
  version : Text r.version
  names : ∀ h ∈ r.headers, Text h.1 ∧ ∀ b ∈ h.1, b ≠ 58 ∧ b ≠ 32
  values : ∀ h ∈ r.headers, Text h.2
  declared : ∀ h ∈ r.headers, IsContentLength h.1 → Declares h.2 r.body.length
  framed : r.body ≠ [] → ∃ h ∈ r.headers, IsContentLength h.1

/-! ## How it arrives -/

/-- The request `r` arrives in the items `t` while one handler call reads it: no read would block,
and the empty line is there as soon as the header line before it is. -/
def HttpRequest.ArrivesIn (r : HttpRequest) (t : List SockItem) : Prop :=
  ∃ t₁ t₂, t = t₁ ++ .val cr :: .val lf :: t₂ ∧
    Uncut t₁ (r.requestLine ++ crlf ++ headerLines r.headers) ∧ Uncut t₂ r.body

theorem HttpRequest.arrivesIn_bytes (r : HttpRequest) : r.ArrivesIn (r.bytes.map .val) := by
  refine ⟨(r.requestLine ++ crlf ++ headerLines r.headers).map .val, r.body.map .val, ?_,
    .whole _, .whole _⟩
  simp [bytes, crlf]

theorem HttpRequest.ArrivesIn.values_eq {r : HttpRequest} {t : List SockItem}
    (h : r.ArrivesIn t) : values t = r.bytes ∧ ∀ e, .stop e ∉ t := by
  obtain ⟨t₁, t₂, rfl, h₁, h₂⟩ := h
  refine ⟨?_, fun e he => ?_⟩
  · rw [values_append, h₁.values_eq]
    simp [values, h₂.values_eq, bytes, crlf]
  · simp [h₁.no_stop, h₂.no_stop] at he

/-! ## The readers on what arrives uncut -/

section
variable {α β : Type} {buf x y : Bytes} {next : Bytes → HttpRead α}

theorem recvBufStore_append :
    recvBufStore buf (x ++ y) next = recvBufStore buf x fun buf => recvBufStore buf y next := by
  simp only [recvBufStore, List.length_append, List.append_assoc]
  split
  · rw [if_pos (by omega), if_pos (by omega)]
  · split
    · rw [if_neg (by omega)]
    · rfl

theorem recvBufStore_nil (h : buf.length ≤ recvBufSize) : recvBufStore buf [] next = next buf := by
  simp [recvBufStore, h]

/-- Continuations need to agree on what fits only. -/
theorem recvBufStore_congr {next' : Bytes → HttpRead α}
    (h : ∀ b, b.length ≤ recvBufSize → b = buf ++ x → next b = next' b) :
    recvBufStore buf x next = recvBufStore buf x next' := by
  unfold recvBufStore
  split
  · rename_i hle
    exact h _ (by simpa using hle) rfl
  · rfl

end

section
variable {atEnd : List SockItem → Option (List SockItem)} {buf : Bytes} {t : List SockItem}

/-- Bytes without CR are stored. -/
theorem httpReadLoop_text {x : Bytes} (h : Uncut t x) (hx : ∀ b ∈ x, b ≠ cr)
    (hbuf : buf.length ≤ recvBufSize) (rest : List SockItem) :
    httpReadLoop atEnd false buf (t ++ rest) =
      recvBufStore buf x fun buf => httpReadLoop atEnd false buf rest := by
  induction h generalizing buf with
  | nil => rw [recvBufStore_nil hbuf]; rfl
  | gap _ ih => exact ih hx hbuf
  | @val t xs a _ ih =>
    have ha : a ≠ cr := hx a List.mem_cons_self
    have hxs : ∀ b ∈ xs, b ≠ cr := fun b hb => hx b (List.mem_cons_of_mem _ hb)
    rw [List.cons_append, httpReadLoop, if_neg ha,
      show a :: xs = [a] ++ xs from rfl, recvBufStore_append]
    exact recvBufStore_congr fun b hb _ => ih hxs hb

/-- At CR LF the loop looks whether it ends. -/
theorem httpReadLoop_crlf (h : Uncut t crlf) (rest : List SockItem) :
    httpReadLoop atEnd false buf (t ++ rest) =
      match atEnd rest with
      | some rest => .done buf rest
      | none => recvBufStore buf [lf] fun buf => httpReadLoop atEnd false buf rest := by
  refine h.cons_induction (motive := fun t => httpReadLoop atEnd false buf (t ++ rest) = _) ?_ ?_
  · intro t ih
    exact ih
  · intro t h
    show httpReadLoop atEnd false buf (.val cr :: (t ++ rest)) = _
    rw [httpReadLoop, if_pos rfl]
    refine h.cons_induction
      (motive := fun t => httpReadLoop atEnd true buf (t ++ rest) = _) ?_ ?_
    · intro t ih
      exact ih
    · intro t h
      cases h
      show (if lf = lf then _ else _) = _
      exact if_pos rfl

end

/-- `http_read_request_line` on a line. -/
theorem httpReadRequestLine_uncut {t : List SockItem} {line : Bytes} (h : Uncut t (line ++ crlf))
    (hline : ∀ b ∈ line, b ≠ cr) (rest : List SockItem) :
    httpReadRequestLine (t ++ rest) = recvBufStore [] line fun line => .done line rest := by
  obtain ⟨t₁, t₂, rfl, h₁, h₂⟩ := h.split
  rw [httpReadRequestLine, List.append_assoc, httpReadLoop_text h₁ hline (by decide)]
  exact recvBufStore_congr fun b _ _ => httpReadLoop_crlf h₂ rest

/-- The start of a header line is not taken for the empty line. -/
theorem peekCrlf_uncut {behind : UInt8} {t : List SockItem} {x : Bytes} (h : Uncut t x)
    (hne : x ≠ []) (hx : x.head? ≠ some cr) (rest : List SockItem) :
    peekCrlf behind (t ++ rest) = none := by
  cases h with
  | nil => exact absurd rfl hne
  | gap _ => rfl
  | @val t xs a h =>
    have ha : a ≠ cr := fun h => hx (by rw [h]; rfl)
    show peekCrlf behind (.val a :: (t ++ rest)) = none
    cases t ++ rest with
    | nil => rfl
    | cons i l => cases i <;> simp [peekCrlf, ha]

/-- The reader of the header section on header lines and the empty line: it keeps the lines with LF
between them. -/
theorem httpReadLoop_head {behind : UInt8} (hbehind : behind = 0) (ls : List Bytes) :
    ∀ {l buf : Bytes} {t : List SockItem}, Uncut t ((l :: ls).flatMap (· ++ crlf)) →
      (∀ m ∈ l :: ls, m ≠ [] ∧ ∀ b ∈ m, b ≠ cr) → buf.length ≤ recvBufSize →
      ∀ rest, httpReadLoop (peekCrlf behind) false buf (t ++ .val cr :: .val lf :: rest) =
        recvBufStore buf (List.intercalate [lf] (l :: ls)) fun head => .done head rest := by
  induction ls with
  | nil =>
    intro l buf t h hls hbuf rest
    rw [List.flatMap_singleton] at h
    obtain ⟨t₁, t₂, rfl, h₁, h₂⟩ := h.split
    have hpeek : peekCrlf behind (.val cr :: .val lf :: rest) = some rest := by
      rw [peekCrlf, if_pos ⟨rfl, rfl, hbehind⟩]
    have hl := (hls l List.mem_cons_self).2
    rw [List.append_assoc, httpReadLoop_text h₁ hl hbuf, List.intercalate_singleton]
    refine recvBufStore_congr fun b _ _ => ?_
    rw [httpReadLoop_crlf h₂, hpeek]
  | cons m ls ih =>
    intro l buf t h hls hbuf rest
    have hl := (hls l List.mem_cons_self).2
    have htail := fun x hx => hls x (List.mem_cons_of_mem l hx)
    obtain ⟨hne, hm⟩ := htail m List.mem_cons_self
    rw [List.flatMap_cons] at h
    obtain ⟨t₁, t₂, rfl, h₁, h₂⟩ := h.split
    obtain ⟨t₁, t₃, rfl, h₁, h₃⟩ := h₁.split
    have hstart : ((m :: ls).flatMap (· ++ crlf)).head? ≠ some cr := by
      cases m with
      | nil => exact absurd rfl hne
      | cons b m => simpa using hm b List.mem_cons_self
    have hpeek : peekCrlf behind (t₂ ++ .val cr :: .val lf :: rest) = none :=
      peekCrlf_uncut h₂ (by simp [hne]) hstart _
    rw [List.intercalate_cons_cons, recvBufStore_append, recvBufStore_append, List.append_assoc,
      List.append_assoc, httpReadLoop_text h₁ hl hbuf]
    refine recvBufStore_congr fun b _ _ => ?_
    rw [httpReadLoop_crlf h₃, hpeek]
    exact recvBufStore_congr fun b hb _ => ih h₂ htail hb rest

/-- The body reader on a body. -/
theorem httpBodyLoop_uncut {cap contentLen : Nat} (hcap : contentLen ≤ cap) {t : List SockItem}
    {x buf : Bytes} (h : Uncut t x) (hlen : buf.length + x.length = contentLen)
    (rest : List SockItem) :
    httpBodyLoop cap contentLen buf (t ++ rest) = .done (buf ++ x) rest := by
  induction h generalizing buf with
  | nil =>
    have hfull : ¬ buf.length < contentLen := by
      rw [List.length_nil] at hlen; omega
    rw [List.nil_append, List.append_nil, httpBodyLoop_turn hcap, if_neg hfull]
  | @gap t a xs _ ih =>
    have hmore : buf.length < contentLen := by
      rw [List.length_cons] at hlen; omega
    rw [List.cons_append, httpBodyLoop, if_pos hmore]
    exact ih hlen
  | @val t xs a _ ih =>
    have hmore : buf.length < contentLen := by
      rw [List.length_cons] at hlen; omega
    have hlen' : (buf ++ [a]).length + xs.length = contentLen := by
      rw [List.length_append, List.length_singleton, ← hlen, List.length_cons]; omega
    rw [List.cons_append, httpBodyLoop, if_pos hmore, if_pos (by omega), ih hlen',
      List.append_assoc, List.singleton_append]

/-! ## The parsers on a well-formed request -/

theorem strim_of_no_spaces {s : Bytes} (h : ∀ b ∈ s, b ≠ 32) : strim s = s := by
  apply strim_of_trimmed
  constructor
  · intro hhead
    exact h 32 (List.mem_of_mem_head? hhead) rfl
  · intro hlast
    exact h 32 (List.mem_of_mem_getLast? hlast) rfl

/-- A header line splits into its name and its value. -/
theorem splitHeader_headerLine {h : Bytes × Bytes} (hn : ∀ b ∈ h.1, b ≠ 58 ∧ b ≠ 32) :
    splitHeader (headerLine h) = (h.1, strim h.2) := by
  have hkey : (headerLine h).takeWhile (· != 58) = h.1 := by
    exact takeWhile_append_cons (fun h58 => (hn 58 h58).1 rfl) h.2
  have hval : (headerLine h).drop (h.1.length + 1) = h.2 := by
    rw [headerLine, List.drop_length_add_append, List.drop_one, List.tail_cons]
  simp only [splitHeader, hkey, hval, strim_of_no_spaces fun b hb => (hn b hb).2]

/-- After the header lines are put into the map, a name has the value of one of its lines, or what
it had before. -/
theorem foldl_putHeader (name : Bytes) :
    ∀ {hs : List (Bytes × Bytes)} {m : Headers}, (∀ h ∈ hs, ∀ b ∈ h.1, b ≠ 58 ∧ b ≠ 32) →
      (∃ h ∈ hs, h.1 = name ∧ (hs.map headerLine).foldl putHeader m name = some (strim h.2)) ∨
      ((∀ h ∈ hs, h.1 ≠ name) ∧ (hs.map headerLine).foldl putHeader m name = m name)
  | [], m, _ => .inr ⟨by simp, rfl⟩
  | h :: hs, m, hn => by
    have hsplit := splitHeader_headerLine (hn h List.mem_cons_self)
    rw [List.map_cons, List.foldl_cons]
    rcases foldl_putHeader name (m := putHeader m (headerLine h))
      (fun x hx => hn x (List.mem_cons_of_mem h hx)) with ⟨x, hx, hname, hres⟩ | ⟨hno, hres⟩
    · exact .inl ⟨x, List.mem_cons_of_mem h hx, hname, hres⟩
    · by_cases hname : h.1 = name
      · refine .inl ⟨h, List.mem_cons_self, hname, ?_⟩
        rw [hres, putHeader, hsplit, hname, Function.update_self]
      · refine .inr ⟨fun x hx => ?_, ?_⟩
        · rcases List.mem_cons.mp hx with rfl | hx
          · exact hname
          · exact hno x hx
        · rw [hres, putHeader, hsplit, Function.update_of_ne (Ne.symm hname)]

/-- `request_head` for the header lines of a request. -/
def HttpRequest.requestHead (r : HttpRequest) : Bytes :=
  List.intercalate [lf] (r.headers.map headerLine)

theorem text_headerLine {h : Bytes × Bytes} (hn : Text h.1) (hv : Text h.2) :
    Text (headerLine h) := by
  intro b hb
  rcases List.mem_append.mp hb with hb | hb
  · exact hn b hb
  · rcases List.mem_cons.mp hb with rfl | hb
    · decide
    · exact hv b hb

theorem Text.nul_notMem {s : Bytes} (h : Text s) : (0 : UInt8) ∉ s := fun h0 => (h 0 h0).2.2 rfl

/-- Neither CR nor LF: `strtok` does not cut there. -/
theorem crlf_contains_of_ne {b : UInt8} (hcr : b ≠ cr) (hlf : b ≠ lf) :
    crlf.contains b = false := by
  simp [crlf, hcr, hlf]

/-- The header section parses line by line. -/
theorem HttpRequest.WellFormed.parseHead {r : HttpRequest} (hw : r.WellFormed) :
    httpParseRequestHead r.requestHead =
      (r.headers.map headerLine).foldl putHeader fun _ => none := by
  have htext : ∀ l ∈ r.headers.map headerLine, Text l := by
    intro l hl
    obtain ⟨h, hh, rfl⟩ := List.mem_map.mp hl
    exact text_headerLine (hw.names h hh).1 (hw.values h hh)
  have hlines : ∀ l ∈ r.headers.map headerLine, l ≠ [] ∧ ∀ b ∈ l, crlf.contains b = false := by
    intro l hl
    refine ⟨?_, fun b hb => ?_⟩
    · obtain ⟨h, -, rfl⟩ := List.mem_map.mp hl
      simp [headerLine]
    · obtain ⟨hcr, hlf, -⟩ := htext l hl b hb
      exact crlf_contains_of_ne hcr hlf
  have hnul : (0 : UInt8) ∉ r.requestHead :=
    nul_notMem_intercalate (by decide) _ fun l hl => (htext l hl).nul_notMem
  rw [httpParseRequestHead, (cstr_eq_self_iff _).mpr hnul, requestHead,
    tokens_intercalate (by decide) _ hlines]

theorem text_append {x y : Bytes} (hx : Text x) (hy : Text y) : Text (x ++ y) := by
  intro b hb
  rcases List.mem_append.mp hb with hb | hb
  · exact hx b hb
  · exact hy b hb

theorem HttpRequest.WellFormed.text_requestLine {r : HttpRequest} (hw : r.WellFormed) :
    Text r.requestLine := by
  have hmethod : Text r.method.str := by
    cases r.method <;> decide +kernel
  have hspace : Text (ascii " ") := by decide +kernel
  have hhttp : Text (ascii "HTTP/") := by decide +kernel
  exact text_append hmethod (text_append hspace (text_append hw.uri
    (text_append hspace (text_append hhttp hw.version))))

/-- What looks at the method of a request line finds that of the request. -/
theorem HttpRequest.dispatch_method {α : Type} (r : HttpRequest) (f : HttpMethod → α) (d : α) :
    (if HttpMethod.get.str.isPrefixOf r.requestLine then f .get
      else if HttpMethod.post.str.isPrefixOf r.requestLine then f .post else d) = f r.method := by
  have hself : r.method.str.isPrefixOf r.requestLine = true :=
    List.isPrefixOf_iff_prefix.mpr (List.prefix_append _ _)
  cases hm : r.method with
  | get =>
    rw [hm] at hself
    rw [if_pos hself]
  | post =>
    have hget : HttpMethod.get.str.isPrefixOf r.requestLine = false := by
      rw [requestLine, hm, show HttpMethod.post.str = [80, 79, 83, 84] by decide,
        show HttpMethod.get.str = [71, 69, 84] by decide]
      rfl
    rw [hm] at hself
    rw [hget, if_neg Bool.false_ne_true, if_pos hself]

/-- The parser knows the method, and goes on to the URI. -/
theorem httpParseRequestLine_method (r : HttpRequest) (hnul : (0 : UInt8) ∉ r.requestLine) :
    httpParseRequestLine r.requestLine =
      (strstr (ascii "HTTP/") r.requestLine).bind fun p =>
        if r.method.str.length + 2 ≤ p then
          some (some (r.method, (CStr.of r.requestLine).substr (r.method.str.length + 1)
            (p - r.method.str.length - 2)))
        else none := by
  have hline : (CStr.of r.requestLine).1 = r.requestLine := (cstr_eq_self_iff _).mpr hnul
  simp only [httpParseRequestLine, hline]
  exact r.dispatch_method (fun method => (strstr (ascii "HTTP/") r.requestLine).bind fun p =>
    if method.str.length + 2 ≤ p then
      some (some (method, (CStr.of r.requestLine).substr (method.str.length + 1)
        (p - method.str.length - 2)))
    else none) (some none)

/-- The parser does not refuse the request line: it knows the method. -/
theorem HttpRequest.WellFormed.parseLine {r : HttpRequest} (hw : r.WellFormed) :
    httpParseRequestLine r.requestLine ≠ some none := by
  rw [httpParseRequestLine_method r hw.text_requestLine.nul_notMem]
  cases strstr (ascii "HTTP/") r.requestLine with
  | none => exact fun h => nomatch h
  | some p =>
    rw [Option.bind_some]
    split
    · exact fun h => nomatch h
    · exact fun h => nomatch h

/-! ## The handler on a request -/

/-- `http_parse_request_head` finds a `Content-Length`. -/
def HttpRequest.HasLength (r : HttpRequest) : Prop := ∃ h ∈ r.headers, h.1 = contentLength

instance (r : HttpRequest) : Decidable r.HasLength := inferInstanceAs (Decidable (∃ h ∈ _, _))

/-- What the handler makes of the body of `r`: a message or none; outside `some`, undefined
behaviour. -/
def HttpRequest.handledBody (hdr : MsgHdr) (method : HttpMethod) (uri : CStr) (r : HttpRequest) :
    Option (Option HttpMsg) :=
  if r.HasLength then
    if 2 ^ 31 ≤ r.body.length then none
    else if r.body = [] then some none
    else (httpMsg hdr method uri (some r.body)).map some
  else (httpMsg hdr method uri none).map some

/-- What the handler makes of the request `r`, be it alone or among others. -/
def HttpRequest.handled (hdr : MsgHdr) (r : HttpRequest) : Option (Option HttpMsg) :=
  if recvBufSize < r.requestLine.length then none else
  match httpParseRequestLine r.requestLine with
  | some (some (method, uri)) =>
    if recvBufSize < r.requestHead.length then none else r.handledBody hdr method uri
  | _ => none

/-- What the socket holds after that, the body having arrived in `t`. -/
def HttpRequest.left (r : HttpRequest) (t rest : List SockItem) : List SockItem :=
  if r.HasLength then rest else t ++ rest

/-- The end of a handler call that read one request. -/
def handledAt (x : Option (Option HttpMsg)) (rest : List SockItem) : HttpRead (Option HttpMsg) :=
  match x with
  | none => .fault
  | some msg => .done msg rest

/-- The body reader on the body of a request: without a `Content-Length` that it finds, the body is
left where it is. -/
theorem httpReadRequestBody_uncut {r : HttpRequest} (hw : r.WellFormed) {t : List SockItem}
    (h : Uncut t r.body) (rest : List SockItem) :
    httpReadRequestBody (httpParseRequestHead r.requestHead) (t ++ rest) =
      if r.HasLength then
        if 2 ^ 31 ≤ r.body.length then .fault else .done (r.body.length, some r.body) rest
      else .done (1, none) (t ++ rest) := by
  rw [httpReadRequestBody, hw.parseHead, show ascii "Content-Length" = contentLength from rfl]
  have hnames := fun h hh => (hw.names h hh).2
  rcases foldl_putHeader contentLength (m := fun _ => none) hnames with
    ⟨f, hf, hname, hres⟩ | ⟨hno, hres⟩
  · have hd : Declares f.2 r.body.length := hw.declared f hf (by rw [hname]; rfl)
    rw [hres, if_pos ⟨f, hf, hname⟩]
    by_cases hsmall : r.body.length < 2 ^ 31
    · have hn : ((r.body.length : Int) % 2 ^ 32).toNat = r.body.length := by omega
      have hcap : r.body.length ≤ (r.body.length + 1) % 2 ^ 32 := by omega
      have hbody : httpBodyLoop _ _ [] (t ++ rest) = .done ([] ++ r.body) rest :=
        httpBodyLoop_uncut hcap h (Nat.zero_add _) rest
      simp only [stoi_digits hd.ne_nil hd.digits, hd.val, if_pos hsmall, hn, hbody,
        if_neg (Nat.not_le_of_lt hsmall), HttpRead.bind_done, List.nil_append]
    · simp only [stoi_digits hd.ne_nil hd.digits, hd.val, if_neg hsmall,
        if_pos (Nat.le_of_not_lt hsmall)]
  · rw [hres, if_neg (fun ⟨f, hf, hname⟩ => hno f hf hname)]

/-- The header section of a request, read up to its empty line. -/
theorem httpReadRequestHead_uncut {behind : UInt8} (hbehind : behind = 0) {r : HttpRequest}
    (hw : r.WellFormed) (hne : r.headers ≠ []) {t : List SockItem}
    (h : Uncut t (headerLines r.headers)) (rest : List SockItem) :
    httpReadRequestHead behind (t ++ .val cr :: .val lf :: rest) =
        (recvBufStore [] r.requestHead fun head => .done head rest) ∧
      r.requestHead.length ≠ 0 := by
  have hlines : ∀ m ∈ r.headers.map headerLine, m ≠ [] ∧ ∀ b ∈ m, b ≠ cr := by
    intro m hm
    obtain ⟨f, hf, rfl⟩ := List.mem_map.mp hm
    refine ⟨by simp [headerLine], fun b hb => ?_⟩
    exact (text_headerLine (hw.names f hf).1 (hw.values f hf) b hb).1
  obtain ⟨m, ms, hms⟩ := List.exists_cons_of_ne_nil
    (show r.headers.map headerLine ≠ [] by simpa using hne)
  rw [headerLines, hms] at h
  rw [hms] at hlines
  rw [HttpRequest.requestHead, hms]
  refine ⟨httpReadLoop_head hbehind ms h hlines (by decide) rest, fun hzero => ?_⟩
  rw [List.length_eq_zero_iff] at hzero
  cases ms with
  | nil => exact (hlines m List.mem_cons_self).1 (by simpa using hzero)
  | cons m' ms => simp [List.intercalate_cons_cons] at hzero

/-- The end of a handler call, from the body on. -/
theorem handledBody_tail (hdr : MsgHdr) (method : HttpMethod) (uri : CStr) (r : HttpRequest)
    (t rest : List SockItem) :
    ((if r.HasLength then
        if 2 ^ 31 ≤ r.body.length then .fault else .done (r.body.length, some r.body) rest
      else .done (1, none) (t ++ rest) : HttpRead (Nat × Option Bytes)).bind
      fun (ret, requestBody) l =>
        if ret = 0 then .done none l else
        match httpMsg hdr method uri requestBody with
        | none => .fault
        | some msg => .done (some msg) l) =
      handledAt (r.handledBody hdr method uri) (r.left t rest) := by
  unfold HttpRequest.handledBody HttpRequest.left
  split
  · split
    · rfl
    · rw [HttpRead.bind_done]
      by_cases hempty : r.body = []
      · simp only [hempty, List.length_nil, if_true]
        rfl
      · simp only [List.length_eq_zero_iff, hempty, if_false]
        cases httpMsg hdr method uri (some r.body) <;> rfl
  · simp only [HttpRead.bind_done, Nat.one_ne_zero, if_false]
    cases httpMsg hdr method uri none <;> rfl

/-- The handler on a request that arrives uncut. -/
theorem httpReadRequestHandler_uncut {behind : UInt8} (hbehind : behind = 0) (hdr : MsgHdr)
    {r : HttpRequest} (hw : r.WellFormed) (hne : r.headers ≠ []) {t t₃ : List SockItem}
    (h : Uncut t (r.requestLine ++ crlf ++ headerLines r.headers)) (h₃ : Uncut t₃ r.body)
    (rest : List SockItem) :
    httpReadRequestHandler behind hdr (t ++ .val cr :: .val lf :: t₃ ++ rest) =
      handledAt (r.handled hdr) (r.left t₃ rest) := by
  obtain ⟨t₁, t₂, rfl, h₁, h₂⟩ := h.split
  have hassoc : t₁ ++ t₂ ++ .val cr :: .val lf :: t₃ ++ rest =
      t₁ ++ (t₂ ++ .val cr :: .val lf :: (t₃ ++ rest)) := by simp
  have hline := httpReadRequestLine_uncut h₁ (fun b hb => (hw.text_requestLine b hb).1)
    (t₂ ++ .val cr :: .val lf :: (t₃ ++ rest))
  have hline0 : ¬ r.requestLine.length = 0 := by simp [HttpRequest.requestLine, ascii]
  obtain ⟨hhead, hhead0⟩ := httpReadRequestHead_uncut hbehind hw hne h₂ (t₃ ++ rest)
  have hbody := httpReadRequestBody_uncut hw h₃ rest
  simp only [recvBufStore, List.length_nil, Nat.zero_add, List.nil_append] at hline hhead
  rw [httpReadRequestHandler, hassoc, hline, HttpRequest.handled]
  by_cases hlong : recvBufSize < r.requestLine.length
  · rw [if_pos hlong, if_neg (by omega)]
    rfl
  · rw [if_neg hlong, if_pos (by omega), HttpRead.bind_done, if_neg hline0]
    cases hparse : httpParseRequestLine r.requestLine with
    | none => rfl
    | some parsed =>
      cases parsed with
      | none => exact absurd hparse hw.parseLine
      | some p =>
        obtain ⟨method, uri⟩ := p
        simp only [hhead]
        by_cases hlong' : recvBufSize < r.requestHead.length
        · rw [if_pos hlong', if_neg (by omega)]
          rfl
        · rw [if_neg hlong', if_pos (by omega), HttpRead.bind_done, if_neg hhead0, hbody]
          exact handledBody_tail hdr method uri r t₃ rest

/-- A GET request with one header line, and a POST request with a body. -/
def getRoot : HttpRequest where
  method := .get
  uri := ascii "/"
  version := ascii "1.1"
  headers := [(ascii "Host", ascii " a")]
  body := []

def postAbc : HttpRequest where
  method := .post
  uri := ascii "/x"
  version := ascii "1.1"
  headers := [(ascii "Host", ascii " a"), (contentLength, ascii " 3")]
  body := ascii "abc"

theorem getRoot_wellFormed : getRoot.WellFormed := by
  constructor <;> decide +kernel

theorem postAbc_wellFormed : postAbc.WellFormed := by
  constructor <;> decide +kernel

end Mgx
