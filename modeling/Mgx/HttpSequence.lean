import Mgx.HttpTaken

/-
  Requests on a connection, one after the other.

  A client may send any method; `http_parse_request_line` knows two. What is left of
  a request whose line it refuses is there for the next handler call, which takes it
  for a request. `Segmented` says what should hold of the messages handed to the
  thread pool, however the bytes arrive: they are the requests as they were sent, the
  same as when all bytes are there at once, and no handler call begins inside a
  request.

  What is proved: `http_sequence_iff`. That holds exactly when each request is a GET
  or a POST that the handler can hand on at all, and the client never waits inside
  one: `ArriveIn` describes those arrivals. Of a request that is cut by a wait the
  handler forgets what it had read (`http_sequence_lost`).
-/
namespace Mgx
open CMem Inflow

/-! ## Requests of any method -/

/-- A word of a request line. -/
def Token (s : Bytes) : Prop := s ≠ [] ∧ Text s ∧ (32 : UInt8) ∉ s

instance (s : Bytes) : Decidable (Token s) := inferInstanceAs (Decidable (_ ∧ _ ∧ _))

/-- The parts of a request, whatever its method. -/
structure AnyRequest where
  method : Bytes
  uri : Bytes
  version : Bytes
  headers : List (Bytes × Bytes)
  body : Bytes

def AnyRequest.requestLine (r : AnyRequest) : Bytes :=
  r.method ++ (ascii " " ++ (r.uri ++ (ascii " " ++ (ascii "HTTP/" ++ r.version))))

/-- The request as it is sent. -/
def AnyRequest.bytes (r : AnyRequest) : Bytes :=
  r.requestLine ++ crlf ++ headerLines r.headers ++ crlf ++ r.body

/-- The rest of the request, with a method of the parser's. -/
def AnyRequest.as (r : AnyRequest) (m : HttpMethod) : HttpRequest :=
  ⟨m, r.uri, r.version, r.headers, r.body⟩

def HttpRequest.any (r : HttpRequest) : AnyRequest :=
  ⟨r.method.str, r.uri, r.version, r.headers, r.body⟩

/-- A complete request. Of what `HttpRequest.WellFormed` asks nothing is about the method. -/
structure AnyRequest.WellFormed (r : AnyRequest) : Prop where
  method : Token r.method
  rest : ∀ m, (r.as m).WellFormed

/-- The message is the request as it was sent. -/
def AnyRequest.Carried (hdr : MsgHdr) (r : AnyRequest) (msg : HttpMsg) : Prop :=
  msg.httpMethod.str = r.method ∧ Carries hdr (r.as msg.httpMethod) msg

/-- The handler knows the method and can hand the request on intact. -/
def AnyRequest.Kept (r : AnyRequest) : Prop :=
  ∃ m : HttpMethod, m.str = r.method ∧ r.headers ≠ [] ∧ (r.as m).Deliverable

/-! ## Ways to arrive -/

/-- The requests arrive in any pieces and at any times. -/
structure Arrival (rs : List AnyRequest) (l : List SockItem) : Prop where
  bytes : values l = rs.flatMap AnyRequest.bytes
  stops : ∀ e, .stop e ∈ l → e = some .eagain

/-- Nothing is there to read, any number of times. -/
def Waits (l : List SockItem) : Prop := ∀ i ∈ l, i = .gap ∨ i = .stop (some .eagain)

/-- The request `r` arrives in the items `t` while one handler call reads it, as in
`HttpRequest.ArrivesIn`. -/
def AnyRequest.ArrivesIn (r : AnyRequest) (t : List SockItem) : Prop :=
  ∃ t₁ t₂, t = t₁ ++ .val cr :: .val lf :: t₂ ∧
    Uncut t₁ (r.requestLine ++ crlf ++ headerLines r.headers) ∧ Uncut t₂ r.body

/-- The requests arrive one after the other, with any waits between them. -/
inductive ArriveIn : List AnyRequest → List SockItem → Prop where
  | nil {w : List SockItem} (hw : Waits w) : ArriveIn [] w
  | cons {w t l : List SockItem} {r : AnyRequest} {rs : List AnyRequest} (hw : Waits w)
      (hr : r.ArrivesIn t) (h : ArriveIn rs l) : ArriveIn (r :: rs) (w ++ (t ++ l))

/-- All bytes are available at once. -/
def allAtOnce (rs : List AnyRequest) : List SockItem := (rs.flatMap AnyRequest.bytes).map .val

/-! ## What should hold -/

/-- What the socket holds where a handler call begins, and where the last one ends; the calls are
those of `serveN`. -/
def callsN (behind : UInt8) (hdr : MsgHdr) : Nat → List SockItem → List (List SockItem)
  | 0, l => [l]
  | _ + 1, [] => [[]]
  | n + 1, i :: l =>
    (i :: l) ::
      match httpReadRequestHandler behind hdr (i :: l) with
      | .fault => []
      | .blocked (some _) _ => []
      | .blocked none rest => callsN behind hdr n rest
      | .done _ rest => callsN behind hdr n rest

/-- What has not been read is whole requests. -/
def Between (rs : List AnyRequest) (l : List SockItem) : Prop :=
  ∃ rs', rs' <:+ rs ∧ values l = rs'.flatMap AnyRequest.bytes

/-- The messages of the requests do not depend on how these arrive in `l`: none is lost or cut, what
is handed on meanwhile is the first of them, and no part of a request is read as another one. -/
structure Segmented (behind : UInt8) (hdr : MsgHdr) (rs : List AnyRequest) (l : List SockItem) :
    Prop where
  same : serve behind hdr l = serve behind hdr (allAtOnce rs)
  early : ∀ n, (serveN behind hdr n l).msgs <+: (serve behind hdr (allAtOnce rs)).msgs
  whole : ∃ msgs, serve behind hdr l = ⟨msgs, false⟩ ∧
    List.Forall₂ (AnyRequest.Carried hdr) rs msgs
  between : ∀ l' ∈ callsN behind hdr l.length l, Between rs l'

/-! ## Ways to arrive -/

theorem AnyRequest.as_requestLine {r : AnyRequest} {m : HttpMethod} (hm : m.str = r.method) :
    (r.as m).requestLine = r.requestLine := by
  rw [HttpRequest.requestLine, requestLine, ← hm]
  rfl

theorem AnyRequest.as_arrivesIn {r : AnyRequest} {m : HttpMethod} (hm : m.str = r.method)
    {t : List SockItem} : (r.as m).ArrivesIn t ↔ r.ArrivesIn t := by
  unfold HttpRequest.ArrivesIn ArrivesIn
  rw [as_requestLine hm]
  rfl

theorem AnyRequest.arrivesIn_bytes (r : AnyRequest) : r.ArrivesIn (r.bytes.map .val) := by
  refine ⟨(r.requestLine ++ crlf ++ headerLines r.headers).map .val, r.body.map .val, ?_,
    .whole _, .whole _⟩
  simp [bytes, crlf]

theorem AnyRequest.ArrivesIn.values_eq {r : AnyRequest} {t : List SockItem}
    (h : r.ArrivesIn t) : values t = r.bytes := by
  obtain ⟨t₁, t₂, rfl, h₁, h₂⟩ := h
  rw [values_append, h₁.values_eq]
  simp [values, h₂.values_eq, bytes, crlf]

theorem AnyRequest.bytes_ne_nil (r : AnyRequest) : r.bytes ≠ [] := by simp [bytes, crlf]

theorem arriveIn_allAtOnce (rs : List AnyRequest) : ArriveIn rs (allAtOnce rs) := by
  induction rs with
  | nil => exact .nil (by simp [Waits, allAtOnce])
  | cons r rs ih =>
    have h : ArriveIn (r :: rs) ([] ++ (r.bytes.map .val ++ allAtOnce rs)) :=
      .cons (by simp [Waits]) r.arrivesIn_bytes ih
    simpa [allAtOnce] using h

theorem Waits.values_eq {w : List SockItem} (hw : Waits w) : values w = [] := by
  induction w with
  | nil => rfl
  | cons i w ih =>
    have hw' : Waits w := fun j hj => hw j (List.mem_cons_of_mem i hj)
    rcases hw i List.mem_cons_self with rfl | rfl
    · exact ih hw'
    · exact ih hw'

/-- Items without a value are waits. -/
theorem waits_of_values {w : List SockItem} (hstops : ∀ e, .stop e ∈ w → e = some .eagain)
    (h : values w = []) : Waits w := by
  induction w with
  | nil => exact fun i hi => absurd hi List.not_mem_nil
  | cons i w ih =>
    have ih := ih fun e he => hstops e (List.mem_cons_of_mem i he)
    cases i with
    | val b => cases h
    | gap => exact List.forall_mem_cons.mpr ⟨.inl rfl, ih h⟩
    | stop e =>
      have he := hstops e List.mem_cons_self
      exact List.forall_mem_cons.mpr ⟨.inr (by rw [he]), ih h⟩

theorem ArriveIn.wait {w l : List SockItem} {rs : List AnyRequest} (hw : Waits w)
    (h : ArriveIn rs l) : ArriveIn rs (w ++ l) := by
  have happ : ∀ {w' : List SockItem}, Waits w' → Waits (w ++ w') := fun hw' i hi =>
    (List.mem_append.mp hi).elim (hw i) (hw' i)
  cases h with
  | nil hw' => exact .nil (happ hw')
  | cons hw' hr h =>
    rw [← List.append_assoc]
    exact .cons (happ hw') hr h

/-! ## Requests that are kept -/

/-- The message the handler makes of a request. -/
def AnyRequest.ReadAs (hdr : MsgHdr) (r : AnyRequest) (msg : HttpMsg) : Prop :=
  ∃ m : HttpMethod, m.str = r.method ∧ r.headers ≠ [] ∧ (r.as m).Deliverable ∧
    (r.as m).handled hdr = some (some msg)

theorem AnyRequest.Kept.readAs {r : AnyRequest} (h : r.Kept) (hw : r.WellFormed) (hdr : MsgHdr) :
    ∃ msg, r.ReadAs hdr msg ∧ r.Carried hdr msg := by
  obtain ⟨m, hm, hne, hdel⟩ := h
  obtain ⟨msg, hmsg, hcarries⟩ := ((hw.rest m).handled_carries hdr).mpr hdel
  have hmethod : msg.httpMethod = m := hcarries.method
  exact ⟨msg, ⟨m, hm, hne, hdel, hmsg⟩, by rw [hmethod, hm], hmethod ▸ hcarries⟩

theorem kept_readAs {rs : List AnyRequest} (hw : ∀ r ∈ rs, r.WellFormed)
    (h : ∀ r ∈ rs, r.Kept) (hdr : MsgHdr) :
    ∃ msgs, List.Forall₂ (AnyRequest.ReadAs hdr) rs msgs ∧
      List.Forall₂ (AnyRequest.Carried hdr) rs msgs := by
  induction rs with
  | nil => exact ⟨[], .nil, .nil⟩
  | cons r rs ih =>
    obtain ⟨hwr, hw⟩ := List.forall_mem_cons.mp hw
    obtain ⟨hr, h⟩ := List.forall_mem_cons.mp h
    obtain ⟨msg, hread, hcarried⟩ := hr.readAs hwr hdr
    obtain ⟨msgs, hreads, hcarrieds⟩ := ih hw h
    exact ⟨msg :: msgs, .cons hread hreads, .cons hcarried hcarrieds⟩

/-- One handler call on a request that arrives whole. -/
theorem AnyRequest.ReadAs.handler {behind : UInt8} (hbehind : behind = 0) {hdr : MsgHdr}
    {r : AnyRequest} {msg : HttpMsg} (h : r.ReadAs hdr msg) (hw : r.WellFormed)
    {t : List SockItem} (ht : r.ArrivesIn t) (rest : List SockItem) :
    httpReadRequestHandler behind hdr (t ++ rest) = .done (some msg) rest := by
  obtain ⟨m, hm, hne, hdel, hmsg⟩ := h
  obtain ⟨t₁, t₃, rfl, h₁, h₃⟩ := (as_arrivesIn hm).mpr ht
  have hleft : (r.as m).left t₃ rest = rest := by
    unfold HttpRequest.left
    split
    · rfl
    next hno =>
      -- without a `Content-Length` it has no body
      have hbody : (r.as m).body = [] := by
        have hkept := hdel.body
        cases m with
        | get => exact hkept.2
        | post => exact absurd hkept.1 hno
      rw [hbody] at h₃
      cases h₃
      rfl
  rw [httpReadRequestHandler_uncut hbehind hdr (hw.rest m) hne h₁ h₃, hmsg, hleft]
  rfl

/-! ## Whole runs -/

section
variable {behind : UInt8} {hdr : MsgHdr}

theorem serveN_nil (n : Nat) : serveN behind hdr n [] = ⟨[], false⟩ := by
  cases n <;> rfl

theorem callsN_nil (n : Nat) : callsN behind hdr n [] = [[]] := by
  cases n <;> rfl

/-- The calls are the messages `msgs`, and none of them begins or ends inside a request. -/
def Reads (behind : UInt8) (hdr : MsgHdr) (rs : List AnyRequest) (msgs : List HttpMsg)
    (l : List SockItem) : Prop :=
  ∀ n, l.length ≤ n → serveN behind hdr n l = ⟨msgs, false⟩ ∧
    ∀ l' ∈ callsN behind hdr n l, Between rs l'

theorem Reads.between {rs : List AnyRequest} {msgs : List HttpMsg} {l : List SockItem}
    (h : Reads behind hdr rs msgs l) : Between rs l := by
  refine (h l.length (Nat.le_refl _)).2 l ?_
  cases l with
  | nil => rw [callsN_nil]; exact List.mem_singleton_self _
  | cons i l => exact List.mem_cons_self

/-- Waiting before a request makes no difference. -/
theorem Reads.wait {rs : List AnyRequest} {msgs : List HttpMsg} {w l : List SockItem}
    (hw : Waits w) (h : Reads behind hdr rs msgs l) : Reads behind hdr rs msgs (w ++ l) := by
  induction w with
  | nil => exact h
  | cons i w ih =>
    have ih := ih fun j hj => hw j (List.mem_cons_of_mem i hj)
    have hbetween : Between rs (i :: (w ++ l)) := by
      obtain ⟨rs', hsuffix, hvalues⟩ := ih.between
      refine ⟨rs', hsuffix, ?_⟩
      rcases hw i List.mem_cons_self with rfl | rfl
      · exact hvalues
      · exact hvalues
    intro n hn
    obtain ⟨n, rfl⟩ : ∃ k, n = k + 1 := ⟨n - 1, by simp at hn; omega⟩
    have hn' : (w ++ l).length ≤ n := by simpa using hn
    rcases hw i List.mem_cons_self with rfl | rfl
    · -- a gap is passed by the `recv` that meets it
      show serveN behind hdr (n + 1) (.gap :: (w ++ l)) = _ ∧
        ∀ l' ∈ callsN behind hdr (n + 1) (.gap :: (w ++ l)), _
      obtain ⟨hserve, hcalls⟩ := ih (n + 1) (Nat.le_succ_of_le hn')
      cases hrest : w ++ l with
      | nil =>
        rw [hrest] at hserve hcalls hbetween
        rw [serveN_nil] at hserve
        rw [callsN_nil] at hcalls
        refine ⟨(serveN_nil n).trans hserve, fun l' hl' => ?_⟩
        rcases List.mem_cons.mp hl' with rfl | hl'
        · exact hbetween
        · have hdone : l' ∈ callsN behind hdr n [] := hl'
          rw [callsN_nil] at hdone
          exact hcalls l' hdone
      | cons j l' =>
        rw [hrest] at hserve hcalls hbetween
        refine ⟨hserve, fun l'' hl'' => ?_⟩
        rcases List.mem_cons.mp hl'' with rfl | hl''
        · exact hbetween
        · exact hcalls l'' (List.mem_cons_of_mem _ hl'')
    · -- a call that finds nothing changes nothing
      obtain ⟨hserve, hcalls⟩ := ih n hn'
      refine ⟨hserve, fun l' hl' => ?_⟩
      rcases List.mem_cons.mp hl' with rfl | hl'
      · exact hbetween
      · exact hcalls l' hl'

theorem Between.longer {rs : List AnyRequest} {l : List SockItem} (h : Between rs l)
    (r : AnyRequest) : Between (r :: rs) l := by
  obtain ⟨rs', hsuffix, hvalues⟩ := h
  exact ⟨rs', hsuffix.trans (List.suffix_cons r rs), hvalues⟩

/-- A request that arrives whole, before others. -/
theorem Reads.request (hbehind : behind = 0) {r : AnyRequest} {rs : List AnyRequest}
    {msg : HttpMsg} {msgs : List HttpMsg} {t l : List SockItem} (hw : r.WellFormed)
    (hr : r.ReadAs hdr msg) (ht : r.ArrivesIn t) (hl : values l = rs.flatMap AnyRequest.bytes)
    (h : Reads behind hdr rs msgs l) : Reads behind hdr (r :: rs) (msg :: msgs) (t ++ l) := by
  intro n hn
  have hhandler := hr.handler hbehind hw ht l
  have hbetween : Between (r :: rs) (t ++ l) := by
    refine ⟨r :: rs, List.suffix_refl _, ?_⟩
    rw [values_append, ht.values_eq, hl]
    rfl
  obtain ⟨i, t, rfl⟩ : ∃ i t', t = i :: t' := by
    obtain ⟨t₁, t₂, rfl, -, -⟩ := ht
    cases t₁ <;> exact ⟨_, _, rfl⟩
  obtain ⟨n, rfl⟩ : ∃ k, n = k + 1 := ⟨n - 1, by simp at hn; omega⟩
  obtain ⟨hserve, hcalls⟩ := h n (by simp at hn; omega)
  rw [List.cons_append] at hhandler hbetween ⊢
  rw [serveN, callsN, hhandler]
  refine ⟨congrArg (Served.cons msg) hserve, fun l' hl' => ?_⟩
  rcases List.mem_cons.mp hl' with rfl | hl'
  · exact hbetween
  · exact (hcalls l' hl').longer r

theorem ArriveIn.values_eq {rs : List AnyRequest} {l : List SockItem} (h : ArriveIn rs l) :
    values l = rs.flatMap AnyRequest.bytes := by
  induction h with
  | nil hw => exact hw.values_eq
  | cons hw hr _ ih =>
    rw [values_append, values_append, hw.values_eq, hr.values_eq, ih]
    rfl

theorem ArriveIn.arrival {rs : List AnyRequest} {l : List SockItem} (h : ArriveIn rs l) :
    Arrival rs l := by
  refine ⟨h.values_eq, ?_⟩
  have hwaits : ∀ {w : List SockItem}, Waits w → ∀ e, .stop e ∈ w → e = some .eagain := by
    intro w hw e he
    simpa using hw _ he
  induction h with
  | nil hw => exact hwaits hw
  | @cons w t l r rs hw hr _ ih =>
    obtain ⟨t₁, t₂, rfl, h₁, h₂⟩ := hr
    intro e he
    simp only [List.mem_append, List.mem_cons, h₁.no_stop, h₂.no_stop, reduceCtorEq, or_false,
      false_or] at he
    exact he.elim (hwaits hw e) (ih e)

/-- However the requests arrive without a wait inside one, each is read for itself. -/
theorem ArriveIn.reads {rs : List AnyRequest} {l : List SockItem} (h : ArriveIn rs l)
    {msgs : List HttpMsg} (hbehind : ∀ r ∈ rs, behind = 0) (hw : ∀ r ∈ rs, r.WellFormed)
    (hr : List.Forall₂ (AnyRequest.ReadAs hdr) rs msgs) : Reads behind hdr rs msgs l := by
  induction h generalizing msgs with
  | nil hw₀ =>
    cases hr
    have hnil : Reads behind hdr [] [] [] := by
      intro n _
      rw [serveN_nil, callsN_nil]
      refine ⟨rfl, fun l' hl' => ⟨[], List.suffix_refl _, ?_⟩⟩
      rw [List.mem_singleton.mp hl']
      rfl
    have hall := hnil.wait hw₀
    rwa [List.append_nil] at hall
  | cons hw₀ ht hrest ih =>
    cases hr with
    | cons hread hreads =>
      obtain ⟨hwr, hws⟩ := List.forall_mem_cons.mp hw
      obtain ⟨hb, hbs⟩ := List.forall_mem_cons.mp hbehind
      exact (Reads.request hb hwr hread ht hrest.values_eq (ih hbs hws hreads)).wait hw₀

/-- A further call only adds to what was handed on. -/
theorem serveN_msgs (behind : UInt8) (hdr : MsgHdr) :
    ∀ (n : Nat) (l : List SockItem),
      (serveN behind hdr n l).msgs <+: (serveN behind hdr (n + 1) l).msgs
  | 0, _ => List.nil_prefix
  | _ + 1, [] => List.prefix_rfl
  | n + 1, i :: l => by
    rw [serveN, serveN]
    cases httpReadRequestHandler behind hdr (i :: l) with
    | fault => exact List.prefix_rfl
    | blocked release rest =>
      cases release with
      | none => exact serveN_msgs behind hdr n rest
      | some _ => exact List.prefix_rfl
    | done o rest =>
      cases o with
      | none => exact serveN_msgs behind hdr n rest
      | some msg => exact List.cons_prefix_cons.mpr ⟨rfl, serveN_msgs behind hdr n rest⟩

theorem serveN_msgs_of_le (behind : UInt8) (hdr : MsgHdr) (l : List SockItem) {n m : Nat}
    (h : n ≤ m) : (serveN behind hdr n l).msgs <+: (serveN behind hdr m l).msgs := by
  induction h with
  | refl => exact List.prefix_rfl
  | step _ ih => exact ih.trans (serveN_msgs behind hdr _ l)

/-- Requests that are kept, with no wait inside one. -/
theorem ArriveIn.segmented {rs : List AnyRequest} {l : List SockItem} (h : ArriveIn rs l)
    (hw : ∀ r ∈ rs, r.WellFormed) (hkept : ∀ r ∈ rs, behind = 0 ∧ r.Kept) :
    Segmented behind hdr rs l := by
  obtain ⟨msgs, hreads, hcarried⟩ := kept_readAs hw (fun r hr => (hkept r hr).2) hdr
  have hreads := fun {l : List SockItem} (h : ArriveIn rs l) =>
    h.reads (fun r hr => (hkept r hr).1) hw hreads
  obtain ⟨hserve, hcalls⟩ := hreads h l.length (Nat.le_refl _)
  have hall : serve behind hdr (allAtOnce rs) = ⟨msgs, false⟩ :=
    (hreads (arriveIn_allAtOnce rs) _ (Nat.le_refl _)).1
  refine ⟨hserve.trans hall.symm, fun n => ?_, ⟨msgs, hserve, hcarried⟩, hcalls⟩
  obtain ⟨hserve, -⟩ := hreads h (max n l.length) (Nat.le_max_right ..)
  rw [hall, ← hserve]
  exact serveN_msgs_of_le behind hdr l (Nat.le_max_left ..)

end

/-! ## A call that hands on a request -/

/-- The body of a message is in the bytes of the body reader. -/
theorem httpMsg_body_length {hdr : MsgHdr} {method : HttpMethod} {uri : CStr} {body : Option Bytes}
    {msg : HttpMsg} (h : httpMsg hdr method uri body = some msg) :
    msg.requestBody.1.length ≤ (body.getD []).length := by
  cases method with
  | get =>
    cases h
    exact Nat.zero_le _
  | post =>
    obtain ⟨b, rfl, rfl⟩ := Option.map_eq_some_iff.mp h
    exact (List.takeWhile_prefix _).length_le

/-- A call that took the bytes of a request and handed it on found it uncut. -/
theorem AnyRequest.arrivesIn_of_carried {behind : UInt8} {hdr : MsgHdr} {r : AnyRequest}
    (hw : r.WellFormed) {l rest : List SockItem} {msg : HttpMsg}
    (h : httpReadRequestHandler behind hdr l = .done (some msg) rest)
    (hl : values l = r.bytes ++ values rest) (hcarried : r.Carried hdr msg) :
    ∃ t, l = t ++ rest ∧ r.ArrivesIn t ∧ r.headers ≠ [] := by
  obtain ⟨hmethod, hcarries⟩ := hcarried
  have hwr := hw.rest msg.httpMethod
  obtain ⟨line, l₁, uri, head, l₂, ret, body, hline, hhead, hbody, hmsg⟩ :=
    httpReadRequestHandler_done h
  have hbytes : values l = r.requestLine ++ crlf ++
      ((r.headers.map headerLine).flatMap (· ++ crlf) ++ crlf ++ (r.body ++ values rest)) := by
    rw [hl, bytes, headerLines]
    simp
  have htext : ∀ b ∈ r.requestLine, b ≠ cr := by
    rw [← as_requestLine hmethod]
    exact fun b hb => (hwr.text_requestLine b hb).1
  have hlines : ∀ m ∈ r.headers.map headerLine, m ≠ [] ∧ ∀ b ∈ m, b ≠ cr := by
    intro m hm
    obtain ⟨f, hf, rfl⟩ := List.mem_map.mp hm
    refine ⟨by simp [headerLine], fun b hb => ?_⟩
    exact (text_headerLine (hwr.names f hf).1 (hwr.values f hf) b hb).1
  obtain ⟨t₁, l₁', rfl, ht₁, hrest, hafter⟩ := httpReadLoop_line hline hbytes htext
  obtain rfl : l₁' = l₁ := by
    rcases hafter with hend | ⟨hnone, -⟩
    · exact Option.some.inj hend
    · cases hnone
  obtain ⟨t₃, rfl, ht₃⟩ := httpReadRequestBody_done hbody
  have hlong : r.body.length ≤ (body.getD []).length := by
    have hle := httpMsg_body_length hmsg
    rwa [hcarries.body] at hle
  rcases httpReadLoop_section hhead hrest hlines with ⟨hne, t₂, rfl, ht₂⟩ | hpast
  · have hsame : body.getD [] = r.body := by
      rw [values_append, ht₂.values_eq, List.append_assoc] at hrest
      have hbehind := List.append_cancel_left hrest
      simp only [values, values_append, ht₃.values_eq, crlf, List.cons_append, List.nil_append,
        List.cons.injEq, true_and] at hbehind
      exact List.append_cancel_right hbehind
    rw [hsame] at ht₃
    refine ⟨t₁ ++ t₂ ++ .val cr :: .val lf :: t₃, by simp, ⟨t₁ ++ t₂, t₃, rfl, ?_, ht₃⟩, ?_⟩
    · exact ht₁.append ht₂
    · rintro hnil
      rw [hnil] at hne
      exact hne rfl
  · -- it would have taken bytes of another request
    rw [values_append, ht₃.values_eq, List.length_append, List.length_append] at hpast
    omega

/-- And it was one that is kept. -/
theorem AnyRequest.kept_of_carried {behind : UInt8} {hdr : MsgHdr} {r : AnyRequest}
    (hw : r.WellFormed) {l rest : List SockItem} {msg : HttpMsg}
    (h : httpReadRequestHandler behind hdr l = .done (some msg) rest)
    (hl : values l = r.bytes ++ values rest) (hcarried : r.Carried hdr msg) :
    ∃ t, l = t ++ rest ∧ r.ArrivesIn t ∧ behind = 0 ∧ r.Kept := by
  obtain ⟨t, rfl, ht, hne⟩ := arrivesIn_of_carried hw h hl hcarried
  obtain ⟨hmethod, hcarries⟩ := hcarried
  have hdelivered : Delivered behind hdr (r.as msg.httpMethod) (t ++ rest) :=
    ⟨msg, rest, h, hcarries⟩
  obtain ⟨hbehind, hdel⟩ := (request_delivered_iff behind hdr (hw.rest _) hne
    ((as_arrivesIn hmethod).mpr ht) rest).mp hdelivered
  exact ⟨t, rfl, ht, hbehind, msg.httpMethod, hmethod, hne, hdel⟩

/-! ## Runs in which no request is lost -/

section
variable {behind : UInt8} {hdr : MsgHdr} {rs : List AnyRequest}

theorem mem_callsN (n : Nat) (l : List SockItem) : l ∈ callsN behind hdr n l := by
  cases n with
  | zero => exact List.mem_singleton_self l
  | succ n =>
    cases l with
    | nil => exact List.mem_singleton_self []
    | cons i l => exact List.mem_cons_self

/-- Of two rests of the requests the one with fewer bytes is the shorter one. -/
theorem bytes_le_iff {as bs : List AnyRequest} (ha : as <:+ rs) (hb : bs <:+ rs) :
    (as.flatMap AnyRequest.bytes).length ≤ (bs.flatMap AnyRequest.bytes).length ↔
      as.length ≤ bs.length := by
  have hmore : ∀ (ps cs : List AnyRequest), ps ≠ [] → (cs.flatMap AnyRequest.bytes).length <
      ((ps ++ cs).flatMap AnyRequest.bytes).length := by
    intro ps cs hps
    obtain ⟨p, ps, rfl⟩ := List.exists_cons_of_ne_nil hps
    have hpos := List.length_pos_iff.mpr p.bytes_ne_nil
    rw [List.flatMap_append, List.flatMap_cons, List.length_append, List.length_append]
    omega
  rcases List.suffix_or_suffix_of_suffix ha hb with ⟨ps, rfl⟩ | ⟨ps, rfl⟩
  · rw [List.flatMap_append, List.length_append, List.length_append]
    exact iff_of_true (Nat.le_add_left ..) (Nat.le_add_left ..)
  · by_cases hps : ps = []
    · subst hps
      exact iff_of_true (Nat.le_refl _) (Nat.le_refl _)
    · have hpos := List.length_pos_iff.mpr hps
      have hlong := hmore ps bs hps
      rw [List.length_append]
      constructor
      · intro hle
        omega
      · intro hle
        omega

theorem suffix_eq {as bs : List AnyRequest} (ha : as <:+ rs) (hb : bs <:+ rs)
    (hlen : as.length = bs.length) : as = bs := by
  rcases List.suffix_or_suffix_of_suffix ha hb with h | h
  · exact h.eq_of_length hlen
  · exact (h.eq_of_length hlen.symm).symm

/-- Where a call that begins before the requests `cs` ends. -/
theorem Between.after {cs : List AnyRequest} {l rest : List SockItem} (h : Between rs rest)
    (hcs : cs <:+ rs) (hl : values l = cs.flatMap AnyRequest.bytes)
    (hle : (values rest).length ≤ (values l).length) :
    ∃ ds, ds <:+ rs ∧ values rest = ds.flatMap AnyRequest.bytes ∧ ds.length ≤ cs.length ∧
      ((values rest).length < (values l).length → ds.length < cs.length) := by
  obtain ⟨ds, hds, hrest⟩ := h
  rw [hl, hrest] at hle
  refine ⟨ds, hds, hrest, (bytes_le_iff hds hcs).mp hle, fun hlt => ?_⟩
  rw [hl, hrest] at hlt
  by_contra hlong
  have hge := (bytes_le_iff hcs hds).mpr (Nat.le_of_not_lt hlong)
  omega

/-- Calls that do not begin inside a request hand on no more messages than there are requests. -/
theorem length_msgs_le (n : Nat) : ∀ {l : List SockItem} {cs : List AnyRequest}, cs <:+ rs →
    values l = cs.flatMap AnyRequest.bytes → (∀ l' ∈ callsN behind hdr n l, Between rs l') →
    (serveN behind hdr n l).msgs.length ≤ cs.length := by
  induction n with
  | zero => exact fun _ _ _ => Nat.zero_le _
  | succ n ih =>
    intro l cs hcs hl hcalls
    cases l with
    | nil => exact Nat.zero_le _
    | cons i l =>
      have htakes := httpReadRequestHandler_takes behind hdr (i :: l)
      rw [callsN] at hcalls
      obtain ⟨-, hcalls⟩ := List.forall_mem_cons.mp hcalls
      rw [serveN]
      cases hcall : httpReadRequestHandler behind hdr (i :: l) with
      | fault => exact Nat.zero_le _
      | blocked release rest =>
        rw [hcall] at hcalls htakes
        cases release with
        | some _ => exact Nat.zero_le _
        | none =>
          obtain ⟨t, ht⟩ : rest <:+ i :: l := htakes
          have hle : (values rest).length ≤ (values (i :: l)).length := by
            rw [← ht, values_append, List.length_append]
            exact Nat.le_add_left ..
          obtain ⟨ds, hds, hrest, hshort, -⟩ := (hcalls rest (mem_callsN n rest)).after hcs hl hle
          exact Nat.le_trans (ih hds hrest hcalls) hshort
      | done o rest =>
        rw [hcall] at hcalls
        have hlt := httpReadRequestHandler_values hcall
        obtain ⟨ds, hds, hrest, -, hshort⟩ :=
          (hcalls rest (mem_callsN n rest)).after hcs hl (Nat.le_of_lt hlt)
        have hmsgs := ih hds hrest hcalls
        have hshort := hshort hlt
        cases o with
        | none => exact Nat.le_trans hmsgs (Nat.le_of_lt hshort)
        | some msg => exact Nat.succ_le_of_lt (Nat.lt_of_le_of_lt hmsgs hshort)

theorem Arrival.rest {cs ds : List AnyRequest} {t rest : List SockItem} (h : Arrival cs (t ++ rest))
    (hrest : values rest = ds.flatMap AnyRequest.bytes) : Arrival ds rest :=
  ⟨hrest, fun e he => h.stops e (List.mem_append_right t he)⟩

/-- Where no request was read, there was a wait. -/
theorem Arrival.waits {cs : List AnyRequest} {t rest : List SockItem} (h : Arrival cs (t ++ rest))
    (hrest : values rest = cs.flatMap AnyRequest.bytes) : Waits t := by
  refine waits_of_values (fun e he => h.stops e (List.mem_append_left rest he)) ?_
  have hcut := h.bytes
  rw [values_append, ← hrest] at hcut
  exact List.append_left_eq_self.mp hcut

/-- What a call that began before `cs` has left, when at least the messages of `ds` come after it: one
request has been read where a byte has, and `ds` is all the others. -/
theorem left_of_msgs {n : Nat} {l rest : List SockItem} {cs ds : List AnyRequest} (hcs : cs <:+ rs)
    (hds : ds <:+ rs) (hl : values l = cs.flatMap AnyRequest.bytes)
    (hle : (values rest).length ≤ (values l).length)
    (hcalls : ∀ l' ∈ callsN behind hdr n rest, Between rs l')
    (hmsgs : (serveN behind hdr n rest).msgs.length = ds.length)
    (hlen : cs.length ≤ ds.length ∨
      (values rest).length < (values l).length ∧ cs.length ≤ ds.length + 1) :
    values rest = ds.flatMap AnyRequest.bytes := by
  obtain ⟨es, hes, hrest, hle, hlt⟩ := (hcalls rest (mem_callsN n rest)).after hcs hl hle
  have hmany := length_msgs_le n hes hrest hcalls
  rw [hmsgs] at hmany
  have hfew : es.length ≤ ds.length := by
    rcases hlen with hlen | ⟨hbytes, hlen⟩
    · exact Nat.le_trans hle hlen
    · exact Nat.le_of_lt_succ (Nat.lt_of_lt_of_le (hlt hbytes) hlen)
  rw [hrest, suffix_eq hes hds (Nat.le_antisymm hfew hmany)]

theorem Arrival.arriveIn_nil {l : List SockItem} (h : Arrival [] l) : ArriveIn [] l :=
  .nil (waits_of_values h.stops h.bytes)

/-- When every request is handed on as it was sent, it was kept, and there was no wait inside it. -/
theorem arriveIn_of_carried (n : Nat) : ∀ {l : List SockItem} {cs : List AnyRequest}
    {msgs : List HttpMsg}, cs <:+ rs → (∀ r ∈ cs, r.WellFormed) → Arrival cs l →
    (∀ l' ∈ callsN behind hdr n l, Between rs l') → serveN behind hdr n l = ⟨msgs, false⟩ →
    List.Forall₂ (AnyRequest.Carried hdr) cs msgs →
    (∀ r ∈ cs, behind = 0 ∧ r.Kept) ∧ ArriveIn cs l := by
  induction n with
  | zero =>
    intro l cs msgs _ _ harrive _ hserve hcarried
    obtain ⟨rfl, -⟩ := Served.mk.inj hserve
    cases hcarried
    exact ⟨List.forall_mem_nil _, harrive.arriveIn_nil⟩
  | succ n ih =>
    intro l cs msgs hcs hw harrive hcalls hserve hcarried
    cases hcarried with
    | nil => exact ⟨List.forall_mem_nil _, harrive.arriveIn_nil⟩
    | @cons r msg cs msgs hcar hcars =>
      cases l with
      | nil =>
        obtain ⟨hmsgs, -⟩ := Served.mk.inj hserve
        cases hmsgs
      | cons i l =>
        have htakes := httpReadRequestHandler_takes behind hdr (i :: l)
        have hlen := (List.Forall₂.cons hcar hcars).length_eq
        rw [callsN] at hcalls
        obtain ⟨-, hcalls⟩ := List.forall_mem_cons.mp hcalls
        rw [serveN] at hserve
        cases hcall : httpReadRequestHandler behind hdr (i :: l) with
        | fault =>
          rw [hcall] at hserve
          cases hserve
        | blocked release rest =>
          rw [hcall] at hcalls htakes hserve
          cases release with
          | some _ => cases hserve
          | none =>
            -- as many messages are still to come as before: the call read no request
            replace hserve : serveN behind hdr n rest = ⟨msg :: msgs, false⟩ := hserve
            obtain ⟨t, ht⟩ : rest <:+ i :: l := htakes
            rw [← ht] at harrive ⊢
            have hle : (values rest).length ≤ (values (t ++ rest)).length := by
              rw [values_append, List.length_append]
              exact Nat.le_add_left ..
            have hrest := left_of_msgs hcs hcs harrive.bytes hle hcalls
              (by rw [hserve, hlen]) (.inl (Nat.le_refl _))
            obtain ⟨hkept, hin⟩ := ih hcs hw (harrive.rest hrest) hcalls hserve (.cons hcar hcars)
            exact ⟨hkept, hin.wait (harrive.waits hrest)⟩
        | done o rest =>
          rw [hcall] at hcalls hserve
          have hlt := httpReadRequestHandler_values hcall
          cases o with
          | none =>
            -- bytes were read, and as many messages are still to come as there were requests
            replace hserve : serveN behind hdr n rest = ⟨msg :: msgs, false⟩ := hserve
            have hrest := left_of_msgs hcs hcs harrive.bytes (Nat.le_of_lt hlt) hcalls
              (by rw [hserve, hlen]) (.inl (Nat.le_refl _))
            rw [harrive.bytes, hrest] at hlt
            exact absurd hlt (Nat.lt_irrefl _)
          | some msg' =>
            obtain ⟨hmsg, hfault⟩ := Served.mk.inj hserve
            obtain ⟨rfl, hmsgs⟩ := List.cons.inj hmsg
            have hserve : serveN behind hdr n rest = ⟨msgs, false⟩ := by
              rw [← hmsgs, ← hfault]
            have hcs' : cs <:+ rs := (List.suffix_cons r cs).trans hcs
            have hrest := left_of_msgs hcs hcs' harrive.bytes (Nat.le_of_lt hlt) hcalls
              (by rw [hserve, hcars.length_eq]) (.inr ⟨hlt, Nat.le_refl _⟩)
            obtain ⟨hwr, hws⟩ := List.forall_mem_cons.mp hw
            have hvalues : values (i :: l) = r.bytes ++ values rest := by
              rw [harrive.bytes, hrest]
              rfl
            obtain ⟨t, ht, hin, hbehind, hkept⟩ := r.kept_of_carried hwr hcall hvalues hcar
            rw [ht] at harrive ⊢
            obtain ⟨hkepts, hins⟩ := ih hcs' hws (harrive.rest hrest) hcalls hserve hcars
            refine ⟨List.forall_mem_cons.mpr ⟨⟨hbehind, hkept⟩, hkepts⟩, ?_⟩
            exact .cons (w := []) (by simp [Waits]) hin hins

end

/-- **Requests in sequence.** For every sequence of complete requests, of any methods, and every way
their bytes arrive: the messages handed to the thread pool are the requests as they were sent, one
each and in order, the same as when all bytes are available at once, with no handler call beginning
inside a request, if and only if the byte behind the buffer of the peek is 0, each request is a GET
or a POST that the handler can hand on, and no wait comes inside a request or before its empty line.
-/
theorem http_sequence_iff (behind : UInt8) (hdr : MsgHdr) {rs : List AnyRequest}
    (hw : ∀ r ∈ rs, r.WellFormed) {l : List SockItem} (h : Arrival rs l) :
    Segmented behind hdr rs l ↔ (∀ r ∈ rs, behind = 0 ∧ r.Kept) ∧ ArriveIn rs l := by
  constructor
  · intro hseg
    obtain ⟨msgs, hserve, hcarried⟩ := hseg.whole
    exact arriveIn_of_carried l.length (List.suffix_refl rs) hw h hseg.between hserve hcarried
  · intro hkept
    exact hkept.2.segmented hw hkept.1

theorem HttpRequest.WellFormed.any {r : HttpRequest} (h : r.WellFormed) : r.any.WellFormed := by
  refine ⟨?_, fun m => ⟨h.uri, h.version, h.names, h.values, h.declared, h.framed⟩⟩
  show Token r.method.str
  cases r.method <;> decide +kernel

/-- A GET and a POST, with a wait between them, and the body in a segment of its own. -/
theorem http_sequence_iff_two :
    ∃ l, .stop (some .eagain) ∈ l ∧ .gap ∈ l ∧ Arrival [getRoot.any, postAbc.any] l ∧
      Segmented 0 ⟨0, 1⟩ [getRoot.any, postAbc.any] l := by
  have hpost : postAbc.any.ArrivesIn
      ((postAbc.requestLine ++ crlf ++ headerLines postAbc.headers).map .val ++
        .val cr :: .val lf :: .gap :: postAbc.body.map .val) :=
    ⟨_, _, rfl, .whole _, .gap (.whole _)⟩
  have hin : ArriveIn [getRoot.any, postAbc.any] _ :=
    .cons (w := []) (by simp [Waits]) getRoot.any.arrivesIn_bytes
      (.cons (w := [.stop (some .eagain)]) (by simp [Waits]) hpost (.nil (w := []) (by simp [Waits])))
  have hget : getRoot.any.Kept :=
    ⟨.get, rfl, by decide, by decide, by decide, by decide, by decide, by decide⟩
  have hpost : postAbc.any.Kept :=
    ⟨.post, rfl, by decide, by decide, by decide, by decide, by decide, by decide, by decide,
      by decide⟩
  refine ⟨_, by decide, by decide, hin.arrival,
    (http_sequence_iff 0 ⟨0, 1⟩ ?_ hin.arrival).mpr ⟨?_, hin⟩⟩
  · simp [getRoot_wellFormed.any, postAbc_wellFormed.any]
  · simp [hget, hpost]

/-- `getRoot`, with a wait in its request line. -/
def getRootCut : List SockItem :=
  (getRoot.bytes.take 8).map .val ++ .stop (some .eagain) :: (getRoot.bytes.drop 8).map .val

/-- A request whose body reads like another one. -/
def putPage : AnyRequest where
  method := ascii "PUT"
  uri := ascii "/x"
  version := ascii "1.1"
  headers := [(contentLength, ascii " 27")]
  body := getRoot.bytes

/-- A wait inside the request line loses the request; the body of a PUT is taken for a request. -/
theorem http_sequence_lost :
    (getRoot.any.WellFormed ∧ Arrival [getRoot.any] getRootCut ∧
      (serve 0 ⟨0, 1⟩ getRootCut).msgs = [] ∧ ¬ Segmented 0 ⟨0, 1⟩ [getRoot.any] getRootCut) ∧
    putPage.WellFormed ∧
      (serve 0 ⟨0, 1⟩ (allAtOnce [putPage])).msgs.map (·.httpMethod) = [.get] ∧
      ¬ Segmented 0 ⟨0, 1⟩ [putPage] (allAtOnce [putPage]) := by
  have hlost : (serve 0 ⟨0, 1⟩ getRootCut).msgs = [] := by decide
  have hother : (serve 0 ⟨0, 1⟩ (allAtOnce [putPage])).msgs.map (·.httpMethod) = [.get] := by
    decide
  have hval : ∀ {x : Bytes} {e : Option Errno}, .stop e ∉ (x.map .val : List SockItem) := by
    intro x e he
    obtain ⟨b, -, hb⟩ := List.mem_map.mp he
    cases hb
  have hstops : ∀ e, .stop e ∈ getRootCut → e = some .eagain := by
    intro e he
    simpa only [getRootCut, List.mem_append, List.mem_cons, hval, Item.stop.injEq, false_or,
      or_false] using he
  refine ⟨⟨getRoot_wellFormed.any, ⟨by decide, hstops⟩, hlost, fun h => ?_⟩, ?_, hother,
    fun h => ?_⟩
  · obtain ⟨msgs, hserve, hcarried⟩ := h.whole
    rw [hserve] at hlost
    cases hlost
    cases hcarried
  · refine ⟨by decide +kernel, fun m => ?_⟩
    cases m with
    | get => constructor <;> decide +kernel
    | post => constructor <;> decide +kernel
  · obtain ⟨msgs, hserve, hcarried⟩ := h.whole
    rw [hserve] at hother
    cases hcarried with
    | cons hcar _ =>
      obtain ⟨hmethod, -⟩ := List.cons.inj hother
      have hget : HttpMethod.get.str = putPage.method := hmethod ▸ hcar.1
      exact absurd hget (by decide)

end Mgx
