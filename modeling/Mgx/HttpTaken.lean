import Mgx.HttpDeliver

/-
  What a handler call takes from the socket.

  Whatever `http_read_request_line`, `.._head` and `.._body` meet, they leave the end
  of what was there (`HttpRead.Takes`); a call that returns took a byte at least, and
  no `recv` of it was refused. From what a call returned one can say how the bytes it
  took arrived: a line without CR arrived uncut, and so did a header section, or else
  the reader went past its empty line.
-/
namespace Mgx
open CMem Inflow

/-- What a function that receives leaves in the socket is the end of what was there; when it returned
a value, no `recv` of it was refused. -/
def HttpRead.Takes {α : Type} (l : List SockItem) : HttpRead α → Prop
  | .fault => True
  | .blocked _ rest => rest <:+ l
  | .done _ rest => ∃ t, l = t ++ rest ∧ ∀ e, .stop e ∉ t

section
variable {α β : Type} {l : List SockItem}

theorem HttpRead.Takes.suffix {x : HttpRead α} (h : x.Takes l) {a : α} {rest : List SockItem}
    (hx : x = .done a rest) : rest <:+ l := by
  subst hx
  obtain ⟨t, rfl, -⟩ := h
  exact List.suffix_append t rest

theorem HttpRead.Takes.bind {x : HttpRead α} {f : α → List SockItem → HttpRead β}
    (hx : x.Takes l) (hf : ∀ a rest, (f a rest).Takes rest) : (x.bind f).Takes l := by
  cases x with
  | fault => trivial
  | blocked release rest => exact hx
  | done a rest =>
    obtain ⟨t, rfl, ht⟩ := hx
    have hnext := hf a rest
    rw [bind_done]
    cases hrest : f a rest with
    | fault => trivial
    | blocked release rest' =>
      rw [hrest] at hnext
      exact List.IsSuffix.trans hnext (List.suffix_append t rest)
    | done b rest' =>
      rw [hrest] at hnext
      obtain ⟨t', rfl, ht'⟩ := hnext
      refine ⟨t ++ t', by simp, fun e he => ?_⟩
      exact (List.mem_append.mp he).elim (ht e) (ht' e)

theorem HttpRead.Takes.cons {x : HttpRead α} (h : x.Takes l) {i : SockItem}
    (hi : ∀ e, i ≠ .stop e) : x.Takes (i :: l) := by
  cases x with
  | fault => trivial
  | blocked release rest => exact List.IsSuffix.trans h (List.suffix_cons i l)
  | done a rest =>
    obtain ⟨t, rfl, ht⟩ := h
    refine ⟨i :: t, rfl, fun e he => ?_⟩
    rcases List.mem_cons.mp he with rfl | he
    · exact hi e rfl
    · exact ht e he

theorem HttpRead.Takes.gap {x : HttpRead α} (h : x.Takes l) : x.Takes (.gap :: l) := by
  apply h.cons
  intro e he
  cases he

theorem HttpRead.Takes.val {x : HttpRead α} (h : x.Takes l) (b : UInt8) : x.Takes (.val b :: l) := by
  apply h.cons
  intro e he
  cases he

theorem HttpRead.takes_done (a : α) (l : List SockItem) : (HttpRead.done a l).Takes l :=
  ⟨[], rfl, fun _ => List.not_mem_nil⟩

theorem recvBufStore_takes {buf x : Bytes} {next : Bytes → HttpRead α}
    (h : ∀ buf, (next buf).Takes l) : (recvBufStore buf x next).Takes l := by
  unfold recvBufStore
  split
  · exact h _
  · trivial

theorem httpReadLoop_takes {atEnd : List SockItem → Option (List SockItem)}
    (hend : ∀ l rest, atEnd l = some rest → ∃ t, l = t ++ rest ∧ ∀ e, .stop e ∉ t) :
    ∀ (l : List SockItem) (afterCr : Bool) (buf : Bytes),
      (httpReadLoop atEnd afterCr buf l).Takes l := by
  intro l
  induction l with
  | nil =>
    intro afterCr buf
    rw [httpReadLoop]
    exact List.suffix_refl []
  | cons i l ih =>
    intro afterCr buf
    cases i with
    | gap =>
      rw [httpReadLoop]
      exact (ih afterCr buf).gap
    | stop e =>
      rw [httpReadLoop]
      exact List.suffix_cons _ l
    | val b =>
      cases afterCr with
      | false =>
        rw [httpReadLoop]
        split
        · exact (ih true buf).val b
        · exact (recvBufStore_takes (ih false)).val b
      | true =>
        rw [httpReadLoop]
        split
        · split
          next rest hpeek =>
            have hdone : (HttpRead.done buf rest).Takes l := hend l rest hpeek
            exact hdone.val b
          next => exact (recvBufStore_takes (ih false)).val b
        · exact (recvBufStore_takes (ih false)).val b

theorem httpBodyLoop_takes (cap contentLen : Nat) :
    ∀ (l : List SockItem) (buf : Bytes), (httpBodyLoop cap contentLen buf l).Takes l := by
  intro l
  induction l with
  | nil =>
    intro buf
    rw [httpBodyLoop]
    split
    · exact List.suffix_refl []
    · exact HttpRead.takes_done buf []
  | cons i l ih =>
    intro buf
    cases i with
    | gap =>
      rw [httpBodyLoop]
      split
      · exact (ih buf).gap
      · exact HttpRead.takes_done buf _
    | stop e =>
      rw [httpBodyLoop]
      split
      · exact List.suffix_cons _ l
      · exact HttpRead.takes_done buf _
    | val b =>
      rw [httpBodyLoop]
      split
      · split
        · exact (ih _).val b
        · trivial
      · exact HttpRead.takes_done buf _

theorem peekCrlf_eq_some {behind : UInt8} {rest : List SockItem} :
    peekCrlf behind l = some rest ↔ behind = 0 ∧ l = .val cr :: .val lf :: rest := by
  unfold peekCrlf
  split
  next a b l =>
    rw [Option.ite_none_right_eq_some]
    constructor
    · intro h
      obtain ⟨⟨rfl, rfl, hbehind⟩, hrest⟩ := h
      obtain rfl := Option.some.inj hrest
      exact ⟨hbehind, rfl⟩
    · intro h
      obtain ⟨hbehind, heq⟩ := h
      cases heq
      exact ⟨⟨rfl, rfl, hbehind⟩, rfl⟩
  next hno =>
    constructor
    · nofun
    · intro h
      exact absurd h.2 (hno _ _ _)

theorem httpReadRequestLine_takes (l : List SockItem) : (httpReadRequestLine l).Takes l := by
  refine httpReadLoop_takes (fun l rest h => ?_) l false []
  obtain rfl := Option.some.inj h
  exact ⟨[], rfl, fun _ => List.not_mem_nil⟩

theorem httpReadRequestHead_takes (behind : UInt8) (l : List SockItem) :
    (httpReadRequestHead behind l).Takes l := by
  refine httpReadLoop_takes (fun l rest h => ?_) l false []
  obtain ⟨-, rfl⟩ := peekCrlf_eq_some.mp h
  exact ⟨[.val cr, .val lf], rfl, by simp⟩

theorem httpReadRequestBody_takes (headers : Headers) (l : List SockItem) :
    (httpReadRequestBody headers l).Takes l := by
  unfold httpReadRequestBody
  split
  · exact HttpRead.takes_done _ l
  · split
    · trivial
    · exact (httpBodyLoop_takes _ _ l []).bind fun body rest => HttpRead.takes_done _ rest

/-- The handler reads a request line, and goes on from there. -/
theorem httpReadRequestHandler_eq_bind (behind : UInt8) (hdr : MsgHdr) :
    ∃ f : Bytes → List SockItem → HttpRead (Option HttpMsg),
      (∀ l, httpReadRequestHandler behind hdr l = (httpReadRequestLine l).bind f) ∧
      ∀ line l, (f line l).Takes l := by
  refine ⟨_, fun _ => rfl, fun line l => ?_⟩
  split
  · exact HttpRead.takes_done _ l
  · split
    · trivial
    · exact HttpRead.takes_done _ l
    · refine (httpReadRequestHead_takes behind l).bind fun head l => ?_
      split
      · exact HttpRead.takes_done _ l
      · refine (httpReadRequestBody_takes _ l).bind fun body l => ?_
        dsimp only
        split
        · exact HttpRead.takes_done _ l
        · split
          · trivial
          · exact HttpRead.takes_done _ l

theorem httpReadRequestHandler_takes (behind : UInt8) (hdr : MsgHdr) (l : List SockItem) :
    (httpReadRequestHandler behind hdr l).Takes l := by
  obtain ⟨f, heq, hf⟩ := httpReadRequestHandler_eq_bind behind hdr
  rw [heq]
  exact (httpReadRequestLine_takes l).bind hf

end

/-! ## How it arrived -/

section
variable {atEnd : List SockItem → Option (List SockItem)} {l rest : List SockItem} {x : Bytes}

/-- The bytes that the loop takes: CR LF, and those of its end. -/
theorem httpReadLoop_values {k : Nat}
    (hend : ∀ l, atEnd l = some rest → (values rest).length + k ≤ (values l).length)
    {afterCr : Bool} {buf : Bytes} (h : httpReadLoop atEnd afterCr buf l = .done x rest) :
    (values rest).length + k + (if afterCr then 1 else 2) ≤ (values l).length := by
  refine httpReadLoop_done_induction (motive := fun afterCr _ l =>
    (values rest).length + k + (if afterCr then 1 else 2) ≤ (values l).length) ?_ ?_ ?_ ?_ ?_ ?_ h
  · intro l hpeek
    exact Nat.succ_le_succ (hend l hpeek)
  · exact fun ih => ih
  · exact fun _ _ ih => Nat.le_succ_of_le ih
  · exact fun ih => Nat.succ_le_succ ih
  · exact fun _ _ ih => Nat.le_succ_of_le (Nat.le_of_succ_le ih)
  · exact fun _ _ ih => Nat.le_succ_of_le (Nat.le_of_succ_le ih)

/-- Where the loop is after CR LF. -/
def AfterLine (atEnd : List SockItem → Option (List SockItem)) (x : Bytes)
    (rest l : List SockItem) : Prop :=
  atEnd l = some rest ∨ atEnd l = none ∧ ∃ buf, httpReadLoop atEnd false buf l = .done x rest

/-- The LF after a CR. -/
theorem httpReadLoop_lf {y : Bytes} : ∀ {l : List SockItem} {buf : Bytes},
    httpReadLoop atEnd true buf l = .done x rest → values l = lf :: y →
      ∃ t l', l = t ++ l' ∧ Uncut t [lf] ∧ values l' = y ∧ AfterLine atEnd x rest l'
  | [], _, _, hl => nomatch hl
  | .stop _ :: l, _, h, _ => by
    rw [httpReadLoop] at h
    cases h
  | .gap :: l, buf, h, hl => by
    rw [httpReadLoop] at h
    obtain ⟨t, l', rfl, ht, hl', hafter⟩ := httpReadLoop_lf h hl
    exact ⟨.gap :: t, l', rfl, .gap ht, hl', hafter⟩
  | .val b :: l, buf, h, hl => by
    obtain ⟨rfl, hrest⟩ := List.cons.inj hl
    rw [httpReadLoop, if_pos rfl] at h
    refine ⟨[.val lf], l, rfl, .val lf .nil, hrest, ?_⟩
    split at h
    next hpeek =>
      cases h
      exact .inl hpeek
    next hpeek =>
      unfold recvBufStore at h
      split at h
      · exact .inr ⟨hpeek, _, h⟩
      · cases h

/-- A line without CR that the loop takes arrived uncut. -/
theorem httpReadLoop_line {y : Bytes} : ∀ {l : List SockItem} {line buf : Bytes},
    httpReadLoop atEnd false buf l = .done x rest → values l = line ++ crlf ++ y →
      (∀ b ∈ line, b ≠ cr) →
      ∃ t l', l = t ++ l' ∧ Uncut t (line ++ crlf) ∧ values l' = y ∧ AfterLine atEnd x rest l'
  | [], line, _, _, hl, _ => by
    simp [values, crlf] at hl
  | .stop _ :: l, _, _, h, _, _ => by
    rw [httpReadLoop] at h
    cases h
  | .gap :: l, line, buf, h, hl, hline => by
    rw [httpReadLoop] at h
    obtain ⟨t, l', rfl, ht, hl', hafter⟩ := httpReadLoop_line h hl hline
    exact ⟨.gap :: t, l', rfl, ht.gap_of_ne_nil (by simp [crlf]), hl', hafter⟩
  | .val b :: l, line, buf, h, hl, hline => by
    cases line with
    | nil =>
      obtain ⟨rfl, hrest⟩ := List.cons.inj hl
      rw [httpReadLoop, if_pos rfl] at h
      obtain ⟨t, l', rfl, ht, hl', hafter⟩ := httpReadLoop_lf h hrest
      exact ⟨.val cr :: t, l', rfl, .val cr ht, hl', hafter⟩
    | cons c line =>
      obtain ⟨rfl, hrest⟩ := List.cons.inj hl
      obtain ⟨hb, hline⟩ := List.forall_mem_cons.mp hline
      rw [httpReadLoop, if_neg hb] at h
      unfold recvBufStore at h
      split at h
      · obtain ⟨t, l', rfl, ht, hl', hafter⟩ := httpReadLoop_line h hrest hline
        exact ⟨.val b :: t, l', rfl, .val b ht, hl', hafter⟩
      · cases h

/-- The reader of the header section stops at the empty line of the section, all of which arrived
uncut, or it has taken two bytes at least of what is behind. -/
theorem httpReadLoop_section {behind : UInt8} {y : Bytes} {ls : List Bytes} :
    ∀ {l : List SockItem} {buf : Bytes}, httpReadLoop (peekCrlf behind) false buf l = .done x rest →
      values l = ls.flatMap (· ++ crlf) ++ crlf ++ y → (∀ m ∈ ls, m ≠ [] ∧ ∀ b ∈ m, b ≠ cr) →
      (ls ≠ [] ∧ ∃ t, l = t ++ .val cr :: .val lf :: rest ∧ Uncut t (ls.flatMap (· ++ crlf))) ∨
        (values rest).length + 2 ≤ y.length := by
  induction ls with
  | nil =>
    intro l buf h hl _
    refine .inr ?_
    have htaken := httpReadLoop_values (k := 2) (fun l hpeek => ?_) h
    · rw [hl] at htaken
      simp [crlf] at htaken
      omega
    · obtain ⟨-, rfl⟩ := peekCrlf_eq_some.mp hpeek
      exact Nat.le_refl _
  | cons m ls ih =>
    intro l buf h hl hls
    obtain ⟨⟨-, hm⟩, hls⟩ := List.forall_mem_cons.mp hls
    have hl' : values l = m ++ crlf ++ (ls.flatMap (· ++ crlf) ++ crlf ++ y) := by
      rw [hl, List.flatMap_cons]
      simp
    obtain ⟨t, l', rfl, ht, hrest, hafter⟩ := httpReadLoop_line h hl' hm
    rcases hafter with hpeek | ⟨-, buf', hloop⟩
    · obtain ⟨-, rfl⟩ := peekCrlf_eq_some.mp hpeek
      cases ls with
      | nil =>
        refine .inl ⟨List.cons_ne_nil m [], t, rfl, ?_⟩
        rwa [List.flatMap_singleton]
      | cons m' ls =>
        -- the next line does not begin with CR
        obtain ⟨hne, hm'⟩ := hls m' List.mem_cons_self
        cases m' with
        | nil => exact absurd rfl hne
        | cons b m' =>
          obtain ⟨hb, -⟩ := List.cons.inj hrest
          exact absurd hb.symm (hm' b List.mem_cons_self)
    · rcases ih hloop hrest hls with ⟨-, u, rfl, hu⟩ | hpast
      · refine .inl ⟨List.cons_ne_nil m ls, t ++ u, by rw [List.append_assoc], ?_⟩
        rw [List.flatMap_cons]
        exact ht.append hu
      · exact .inr hpast

end

/-- The body reader takes the bytes it returns, and waits for no more. -/
theorem httpBodyLoop_done {cap contentLen : Nat} {b : Bytes} {rest : List SockItem} :
    ∀ {l : List SockItem} {buf : Bytes}, httpBodyLoop cap contentLen buf l = .done b rest →
      contentLen ≤ b.length ∧ ∃ t x, l = t ++ rest ∧ Uncut t x ∧ b = buf ++ x := by
  have hstop : ∀ {l : List SockItem} {buf : Bytes}, ¬ buf.length < contentLen →
      (.done buf l : HttpRead Bytes) = .done b rest →
      contentLen ≤ b.length ∧ ∃ t x, l = t ++ rest ∧ Uncut t x ∧ b = buf ++ x := by
    intro l buf hfull h
    cases h
    exact ⟨Nat.le_of_not_lt hfull, [], [], rfl, .nil, (List.append_nil _).symm⟩
  intro l
  induction l with
  | nil =>
    intro buf h
    rw [httpBodyLoop] at h
    split at h
    · cases h
    next hfull => exact hstop hfull h
  | cons i l ih =>
    intro buf h
    cases i with
    | gap =>
      rw [httpBodyLoop] at h
      split at h
      next hmore =>
        obtain ⟨hle, t, x, rfl, ht, rfl⟩ := ih h
        refine ⟨hle, .gap :: t, x, rfl, ht.gap_of_ne_nil (fun hnil => ?_), rfl⟩
        rw [hnil, List.append_nil] at hle
        omega
      next hfull => exact hstop hfull h
    | stop e =>
      rw [httpBodyLoop] at h
      split at h
      · cases h
      next hfull => exact hstop hfull h
    | val c =>
      rw [httpBodyLoop] at h
      split at h
      · split at h
        · obtain ⟨hle, t, x, rfl, ht, rfl⟩ := ih h
          exact ⟨hle, .val c :: t, c :: x, rfl, .val c ht, by simp⟩
        · cases h
      next hfull => exact hstop hfull h

theorem httpReadRequestBody_done {headers : Headers} {l rest : List SockItem} {ret : Nat}
    {body : Option Bytes} (h : httpReadRequestBody headers l = .done (ret, body) rest) :
    ∃ t, l = t ++ rest ∧ Uncut t (body.getD []) := by
  unfold httpReadRequestBody at h
  split at h
  · cases h
    exact ⟨[], rfl, .nil⟩
  · split at h
    · cases h
    · obtain ⟨b, l', hloop, hdone⟩ := HttpRead.bind_eq_done.mp h
      cases hdone
      obtain ⟨-, t, x, rfl, ht, rfl⟩ := httpBodyLoop_done hloop
      exact ⟨t, rfl, ht⟩

/-- What the four readers and parsers returned when a message is handed on. -/
theorem httpReadRequestHandler_done {behind : UInt8} {hdr : MsgHdr} {l rest : List SockItem}
    {msg : HttpMsg} (h : httpReadRequestHandler behind hdr l = .done (some msg) rest) :
    ∃ line l₁ uri head l₂ ret body, httpReadRequestLine l = .done line l₁ ∧
      httpReadRequestHead behind l₁ = .done head l₂ ∧
      httpReadRequestBody (httpParseRequestHead head) l₂ = .done (ret, body) rest ∧
      httpMsg hdr msg.httpMethod uri body = some msg := by
  obtain ⟨line, l₁, hline, h⟩ := HttpRead.bind_eq_done.mp h
  split at h
  · cases h
  · split at h
    · cases h
    · cases h
    next method uri _ =>
      obtain ⟨head, l₂, hhead, h⟩ := HttpRead.bind_eq_done.mp h
      split at h
      · cases h
      · obtain ⟨⟨ret, body⟩, l₃, hbody, h⟩ := HttpRead.bind_eq_done.mp h
        dsimp only at h
        split at h
        · cases h
        · split at h
          · cases h
          next msg' hmsg =>
            cases h
            have hmethod : msg.httpMethod = method := by
              cases method with
              | get => cases hmsg; rfl
              | post =>
                obtain ⟨b, -, rfl⟩ := Option.map_eq_some_iff.mp hmsg
                rfl
            exact ⟨line, l₁, uri, head, l₂, ret, body, hline, hhead, hbody, hmethod ▸ hmsg⟩

/-- A call that returns takes a byte at least. -/
theorem httpReadRequestHandler_values {behind : UInt8} {hdr : MsgHdr} {l rest : List SockItem}
    {o : Option HttpMsg} (h : httpReadRequestHandler behind hdr l = .done o rest) :
    (values rest).length < (values l).length := by
  obtain ⟨f, heq, hf⟩ := httpReadRequestHandler_eq_bind behind hdr
  rw [heq] at h
  obtain ⟨line, l₁, hline, h⟩ := HttpRead.bind_eq_done.mp h
  obtain ⟨t, rfl⟩ := (hf line l₁).suffix h
  have hends : ∀ l, (some l : Option (List SockItem)) = some (t ++ rest) →
      (values (t ++ rest)).length + 0 ≤ (values l).length := by
    intro l hend
    rw [Option.some.inj hend]
    exact Nat.le_refl _
  have htaken := httpReadLoop_values hends hline
  rw [values_append, List.length_append] at htaken
  simp only [Bool.false_eq_true, if_false] at htaken
  omega

end Mgx
