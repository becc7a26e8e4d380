import Mgx.HttpDeliver

/-
  Which request lines the parser gets right.

  The method is a prefix and nothing more, and the URI is taken to end one byte
  before the first "HTTP/" of the line, wherever that is; its length is an `int`.
  The parser returns false only where it does not know the method.

  Correspondence (C++ ↔ Lean), `http/mgx_http_socket.cpp`:
    `url_len`                                 ↔ `urlLen`
    `http_parse_request_line` with that `int` ↔ `httpParseRequestLineInt`
    METHOD SP URI SP HTTP/VERSION             ↔ `HttpRequest.InGrammar`

  The program is modelled with `httpParseRequestLine` (`Mgx.HttpRequest`), whose
  length has no bound. `httpParseRequestLineInt` is the same function with the `int`,
  and equal to it on a line shorter than 2^31 (`httpParseRequestLineInt_eq`).

  What is proved: `request_line_exact_iff`. The parser does with a line what the
  grammar says exactly when the line starts with neither method, or is a request
  line whose URI has no "HTTP/" and a length that fits an `int` with its NUL. On what
  the reader returns the `int` changes nothing (`httpParseRequestLineInt_read`).
-/
namespace Mgx
open CMem

/-- `p - request_line - strlen(method_str) - 2`, taken to `int`; `p` is an index of the line. -/
def urlLen (method : HttpMethod) (p : Nat) : Int :=
  Int.bmod ((p : Int) - method.str.length - 2) (2 ^ 32)

/-- `http_parse_request_line` on lines of any length: `some none` where it returns false, `none` where
it subtracts from a null pointer, or makes a buffer of `url_len + 1` bytes for a `url_len` that is
negative or the largest `int`. `strncpy` stops at the end of the line. -/
def httpParseRequestLineInt (requestLine : Bytes) : Option (Option (HttpMethod × CStr)) :=
  let line := CStr.of requestLine
  let uri (method : HttpMethod) : Option (Option (HttpMethod × CStr)) :=
    (strstr (ascii "HTTP/") line.1).bind fun p =>
      if 0 ≤ urlLen method p ∧ urlLen method p + 1 < 2 ^ 31 then
        some (some (method, line.substr (method.str.length + 1) (urlLen method p).toNat))
      else none
  if HttpMethod.get.str.isPrefixOf line.1 then uri .get
  else if HttpMethod.post.str.isPrefixOf line.1 then uri .post
  else some none

/-- The request `r` makes the line one of the grammar. `IsVersion` is what may follow "HTTP/". -/
structure HttpRequest.InGrammar (IsVersion : Bytes → Prop) (line : CStr) (r : HttpRequest) :
    Prop where
  line : line.1 = r.requestLine
  version : IsVersion r.version
  uri : r.uri ≠ []
  spaces : (32 : UInt8) ∉ r.uri

/-- A line of the grammar gives its method and its URI, any other is refused, and nothing undefined
happens. -/
structure ParsesExactly (IsVersion : Bytes → Prop) (line : CStr) : Prop where
  accepts : ∀ r : HttpRequest, r.InGrammar IsVersion line →
    ∃ uri, httpParseRequestLineInt line.1 = some (some (r.method, uri)) ∧ uri.1 = r.uri
  refuses : (∀ r : HttpRequest, ¬ r.InGrammar IsVersion line) →
    httpParseRequestLineInt line.1 = some none

/-! ## The length of the URI -/

/-- Shorter lines do not need the `int`. -/
theorem httpParseRequestLineInt_eq {line : Bytes} (hlen : line.length < 2 ^ 31) :
    httpParseRequestLineInt line = httpParseRequestLine line := by
  have hcut : (CStr.of line).1.length ≤ line.length := (List.takeWhile_prefix _).length_le
  have huri : ∀ method : HttpMethod,
      ((strstr (ascii "HTTP/") (CStr.of line).1).bind fun p =>
        if 0 ≤ urlLen method p ∧ urlLen method p + 1 < 2 ^ 31 then
          some (some (method, (CStr.of line).substr (method.str.length + 1)
            (urlLen method p).toNat))
        else none) =
      (strstr (ascii "HTTP/") (CStr.of line).1).bind fun p =>
        if method.str.length + 2 ≤ p then
          some (some (method, (CStr.of line).substr (method.str.length + 1)
            (p - method.str.length - 2)))
        else none := by
    intro method
    have hmethod : method.str.length ≤ 4 := by
      cases method <;> decide
    cases hfind : strstr (ascii "HTTP/") (CStr.of line).1 with
    | none => rfl
    | some p =>
      have hp := strstr_le hfind
      have hlong : (ascii "HTTP/").length = 5 := by decide
      have hfits : urlLen method p = (p : Int) - method.str.length - 2 :=
        bmod_eq_of_fits (by omega) (by omega)
      rw [Option.bind_some, Option.bind_some, hfits]
      by_cases hle : method.str.length + 2 ≤ p
      · rw [if_pos hle, if_pos (by omega)]
        congr 4
        omega
      · rw [if_neg hle, if_neg (by omega)]
  unfold httpParseRequestLineInt httpParseRequestLine
  simp only [huri]

/-- So on what the reader returns, and the handler parses, it is the parser of the handler. -/
theorem httpParseRequestLineInt_read {l rest : List SockItem} {line : Bytes}
    (h : httpReadRequestLine l = .done line rest) :
    httpParseRequestLineInt line = httpParseRequestLine line := by
  apply httpParseRequestLineInt_eq
  exact Nat.lt_of_le_of_lt (httpReadLoop_length h) (by decide)

/-! ## The parser on a line of the grammar -/

/-- It returns false only when the line starts with neither method. -/
theorem httpParseRequestLineInt_refuses_iff (line : CStr) :
    httpParseRequestLineInt line.1 = some none ↔
      ∀ method : HttpMethod, ¬ method.str <+: line.1 := by
  have hline : (CStr.of line.1).1 = line.1 := (cstr_eq_self_iff _).mpr line.2
  have huri : ∀ method : HttpMethod, ((strstr (ascii "HTTP/") line.1).bind fun p =>
      if 0 ≤ urlLen method p ∧ urlLen method p + 1 < 2 ^ 31 then
        some (some (method, (CStr.of line.1).substr (method.str.length + 1)
          (urlLen method p).toNat))
      else none) ≠ some none := by
    intro method h
    obtain ⟨p, -, hp⟩ := Option.bind_eq_some_iff.mp h
    split at hp
    · cases hp
    · cases hp
  simp only [httpParseRequestLineInt, hline, ← List.isPrefixOf_iff_prefix]
  constructor
  · intro h
    split at h
    · exact absurd h (huri .get)
    · next hget =>
      split at h
      · exact absurd h (huri .post)
      · next hpost =>
        intro method
        cases method with
        | get => exact hget
        | post => exact hpost
  · intro h
    rw [if_neg (h .get), if_neg (h .post)]

/-- Where the parser takes the URI to end, from where it starts: one byte before the first "HTTP/"
of the line. -/
def HttpRequest.uriEnd (r : HttpRequest) : Int :=
  match strstr (ascii "HTTP/") r.uri with
  | some j => (j : Int) - 1
  | none => r.uri.length

theorem HttpRequest.uriEnd_bounds (r : HttpRequest) : -1 ≤ r.uriEnd ∧ r.uriEnd ≤ r.uri.length := by
  unfold uriEnd
  split
  · next j hj =>
    have hle := strstr_le hj
    omega
  · omega

/-- That is its end when there is no "HTTP/" in it. -/
theorem HttpRequest.uriEnd_eq_iff (r : HttpRequest) :
    r.uriEnd = r.uri.length ↔ ¬ ascii "HTTP/" <:+: r.uri := by
  rw [← strstr_eq_none_iff http_ne_nil, uriEnd]
  cases hfind : strstr (ascii "HTTP/") r.uri with
  | none => simp only
  | some j =>
    have hle := strstr_le hfind
    have hne : (j : Int) - 1 ≠ r.uri.length := by omega
    simp only [hne, reduceCtorEq]

/-- The parser gets as much of the URI as the first "HTTP/" and the `int` leave. -/
theorem HttpRequest.parseLineInt_eq (r : HttpRequest) (hnul : (0 : UInt8) ∉ r.requestLine) :
    httpParseRequestLineInt r.requestLine =
      if 0 ≤ Int.bmod r.uriEnd (2 ^ 32) ∧ Int.bmod r.uriEnd (2 ^ 32) + 1 < 2 ^ 31 then
        some (some (r.method, .of (r.uri.take (Int.bmod r.uriEnd (2 ^ 32)).toNat)))
      else none := by
  have hline : (CStr.of r.requestLine).1 = r.requestLine := (cstr_eq_self_iff _).mpr hnul
  have hmethod := r.dispatch_method (fun method =>
    (strstr (ascii "HTTP/") r.requestLine).bind fun p =>
      if 0 ≤ urlLen method p ∧ urlLen method p + 1 < 2 ^ 31 then
        some (some (method, (CStr.of r.requestLine).substr (method.str.length + 1)
          (urlLen method p).toNat))
      else none) (some none)
  -- `url_len` in the terms of the URI
  have hlen : ∃ p, strstr (ascii "HTTP/") r.requestLine = some p ∧
      urlLen r.method p = Int.bmod r.uriEnd (2 ^ 32) := by
    refine ⟨_, strstr_requestLine r, ?_⟩
    rw [urlLen, uriEnd]
    cases strstr (ascii "HTTP/") r.uri with
    | none =>
      congr 1
      push_cast
      omega
    | some j =>
      congr 1
      push_cast
      omega
  obtain ⟨p, hp, hlen⟩ := hlen
  have hbounds := r.uriEnd_bounds
  simp only [httpParseRequestLineInt, hline]
  rw [hmethod, hp, Option.bind_some, hlen]
  split
  · next hfits =>
    have hle := bmod_le_self hbounds.1
    rw [r.requestLine_substr hnul (by omega)]
  · rfl

/-- It gets all of it when there is no "HTTP/" in it and it is not too long. -/
theorem HttpRequest.parseLineInt_exact_iff (r : HttpRequest)
    (hnul : (0 : UInt8) ∉ r.requestLine) :
    (∃ uri, httpParseRequestLineInt r.requestLine = some (some (r.method, uri)) ∧
        uri.1 = r.uri) ↔
      ¬ ascii "HTTP/" <:+: r.uri ∧ r.uri.length + 1 < 2 ^ 31 := by
  have hno : (0 : UInt8) ∉ r.uri := by
    intro h
    apply hnul
    rw [requestLine]
    simp only [List.mem_append]
    exact .inr (.inr (.inl h))
  have hbounds := r.uriEnd_bounds
  rw [← r.uriEnd_eq_iff, r.parseLineInt_eq hnul]
  constructor
  · rintro ⟨uri, hparse, huri⟩
    split at hparse
    · next hfits =>
      obtain ⟨-, rfl⟩ := Prod.mk.inj (Option.some.inj (Option.some.inj hparse))
      have hcut : (cstr (r.uri.take (Int.bmod r.uriEnd (2 ^ 32)).toNat)).length ≤
          (r.uri.take (Int.bmod r.uriEnd (2 ^ 32)).toNat).length :=
        (List.takeWhile_prefix _).length_le
      have hlen : (cstr (r.uri.take (Int.bmod r.uriEnd (2 ^ 32)).toNat)).length = r.uri.length :=
        congrArg List.length huri
      rw [hlen, List.length_take] at hcut
      have hle := bmod_le_self hbounds.1
      constructor
      · omega
      · omega
    · cases hparse
  · rintro ⟨hend, hlen⟩
    have hfits : Int.bmod (r.uri.length : Int) (2 ^ 32) = r.uri.length :=
      bmod_eq_of_fits (by omega) (by omega)
    refine ⟨.of r.uri, ?_, (cstr_eq_self_iff _).mpr hno⟩
    rw [hend, hfits, Int.toNat_natCast, List.take_length, if_pos (by omega)]

/-! ## The grammar -/

/-- The method and the URI of a line are those of the grammar in one way only. -/
theorem HttpRequest.InGrammar.unique {IsVersion : Bytes → Prop} {line : CStr} {r s : HttpRequest}
    (hr : r.InGrammar IsVersion line) (hs : s.InGrammar IsVersion line) :
    r.method = s.method ∧ r.uri = s.uri := by
  have hsame : r.requestLine = s.requestLine := hr.line.symm.trans hs.line
  have hmethod : r.method = s.method := by
    have h := r.dispatch_method id .get
    rw [hsame, s.dispatch_method id .get] at h
    exact h.symm
  refine ⟨hmethod, ?_⟩
  -- the URI is what comes before the next space
  have huri : ∀ q : HttpRequest, (32 : UInt8) ∉ q.uri →
      ((q.requestLine.drop (q.method.str.length + 1)).takeWhile (· != 32)) = q.uri := by
    intro q hq
    rw [q.requestLine_drop, takeWhile_append_cons hq]
  rw [← huri r hr.spaces, ← huri s hs.spaces, hsame, hmethod]

/-- **When the request-line parser is exact.** For every line without NUL, and whatever counts as a
version: the parser accepts the line with its method and its URI if the line is of the grammar and
refuses it otherwise, and nothing undefined happens, if and only if the line starts with neither
method, or it is of the grammar, its URI does not contain "HTTP/" and the length of the URI with its
NUL is an `int`. -/
theorem request_line_exact_iff (IsVersion : Bytes → Prop) (line : CStr) :
    ParsesExactly IsVersion line ↔
      (∀ method : HttpMethod, ¬ method.str <+: line.1) ∨
      ∃ r : HttpRequest, r.InGrammar IsVersion line ∧
        ¬ ascii "HTTP/" <:+: r.uri ∧ r.uri.length + 1 < 2 ^ 31 := by
  constructor
  · intro h
    by_cases hgrammar : ∃ r : HttpRequest, r.InGrammar IsVersion line
    · obtain ⟨r, hr⟩ := hgrammar
      have hnul : (0 : UInt8) ∉ r.requestLine := hr.line ▸ line.2
      have haccepts := h.accepts r hr
      rw [hr.line] at haccepts
      exact .inr ⟨r, hr, (r.parseLineInt_exact_iff hnul).mp haccepts⟩
    · have hnone : ∀ r : HttpRequest, ¬ r.InGrammar IsVersion line :=
        fun r hr => hgrammar ⟨r, hr⟩
      exact .inl ((httpParseRequestLineInt_refuses_iff line).mp (h.refuses hnone))
  · rintro (hmethod | ⟨r, hr, hexact⟩)
    · refine ⟨fun r hr => ?_, fun _ => (httpParseRequestLineInt_refuses_iff line).mpr hmethod⟩
      have hprefix : r.method.str <+: line.1 := by
        rw [hr.line]
        exact List.prefix_append _ _
      exact absurd hprefix (hmethod r.method)
    · have hnul : (0 : UInt8) ∉ r.requestLine := hr.line ▸ line.2
      refine ⟨fun s hs => ?_, fun hnone => absurd hr (hnone r)⟩
      obtain ⟨hm, hu⟩ := hr.unique hs
      rw [← hm, ← hu, hr.line]
      exact (r.parseLineInt_exact_iff hnul).mpr hexact

/-- A URI with "HTTP/" in it is cut in front of it, and a line without one is no line to refuse: its
URI starts from a null pointer. -/
theorem request_line_not_exact :
    httpParseRequestLineInt (ascii "GET /HTTP/ HTTP/1.1") = some (some (.get, .of [])) ∧
    httpParseRequestLineInt (ascii "GET /a") = none ∧
    ¬ ParsesExactly (· = ascii "1.1") (.of (ascii "GET /HTTP/ HTTP/1.1")) ∧
    ¬ ParsesExactly (· = ascii "1.1") (.of (ascii "GET /a")) := by
  have hcut : httpParseRequestLineInt (ascii "GET /HTTP/ HTTP/1.1") =
      some (some (.get, .of [])) := by decide
  have hnull : httpParseRequestLineInt (ascii "GET /a") = none := by decide
  have hself : (CStr.of (ascii "GET /HTTP/ HTTP/1.1")).1 = ascii "GET /HTTP/ HTTP/1.1" := by
    decide
  have hself' : (CStr.of (ascii "GET /a")).1 = ascii "GET /a" := by decide
  refine ⟨hcut, hnull, fun h => ?_, fun h => ?_⟩
  · have hr : (⟨.get, ascii "/HTTP/", ascii "1.1", [], []⟩ : HttpRequest).InGrammar
        (· = ascii "1.1") (.of (ascii "GET /HTTP/ HTTP/1.1")) :=
      ⟨by decide, rfl, by decide, by decide⟩
    obtain ⟨uri, hparse, huri⟩ := h.accepts _ hr
    rw [hself, hcut] at hparse
    obtain ⟨-, rfl⟩ := Prod.mk.inj (Option.some.inj (Option.some.inj hparse))
    exact absurd huri (by decide)
  · by_cases hgrammar : ∃ r : HttpRequest,
        r.InGrammar (· = ascii "1.1") (.of (ascii "GET /a"))
    · obtain ⟨r, hr⟩ := hgrammar
      obtain ⟨uri, hparse, -⟩ := h.accepts r hr
      rw [hself', hnull] at hparse
      cases hparse
    · have hparse := h.refuses fun r hr => hgrammar ⟨r, hr⟩
      rw [hself', hnull] at hparse
      cases hparse

end Mgx
