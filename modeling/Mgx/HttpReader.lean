import Mathlib.Data.List.DropRight
import Mgx.HttpSegment

/-
  The two readers, byte by byte.

  `http_read_request_line` and `http_read_request_head` store what they receive in
  `recv_buf` and look for the end a byte at a time: after a CR they take the next
  byte, whatever it is, as the other half of a pair.

  What is proved:
    `recv_buf_bounds_iff`       no store is past `recv_buf` exactly when no text
                                longer than the array comes before the end;
    `request_line_ends_iff`     the first reader stops at the first CR LF exactly
                                when an even number of CRs stands before it;
    `head_never_exact`          the second reader never reads a header section
                                without reading behind its two-byte buffer;
    `head_read_iff`             apart from that it reads the section exactly when
                                there is a header line, no line has a NUL, and the
                                byte behind the buffer is 0;
    `peekCrlf_isSome`           the loop of the second reader ends exactly where
                                `strcmp` on the buffer says so.
-/
namespace Mgx
open CMem Inflow

/-! ## The receive buffer -/

/-- The socket holds the text `x` first, in which the reader finds no end: bytes other than CR, pairs
of a CR and a byte other than LF, and CR LF where `atEnd` does not end the loop, of which LF is kept.
`afterCr` when a CR has been taken. -/
inductive Unended (atEnd : List SockItem → Option (List SockItem)) :
    Bool → List SockItem → Bytes → Prop
  | nil (afterCr : Bool) (l : List SockItem) : Unended atEnd afterCr l []
  | gap {afterCr : Bool} {l : List SockItem} {x : Bytes} (h : Unended atEnd afterCr l x) :
      Unended atEnd afterCr (.gap :: l) x
  | byte {b : UInt8} {l : List SockItem} {x : Bytes} (hb : b ≠ cr) (h : Unended atEnd false l x) :
      Unended atEnd false (.val b :: l) (b :: x)
  | cr {l : List SockItem} {x : Bytes} (h : Unended atEnd true l x) :
      Unended atEnd false (.val cr :: l) x
  | pair {b : UInt8} {l : List SockItem} {x : Bytes} (hb : b ≠ lf) (h : Unended atEnd false l x) :
      Unended atEnd true (.val b :: l) (cr :: b :: x)
  | line {l : List SockItem} {x : Bytes} (hend : atEnd l = none) (h : Unended atEnd false l x) :
      Unended atEnd true (.val lf :: l) (lf :: x)

section
variable {atEnd : List SockItem → Option (List SockItem)}

/-- A store and what follows run past the array when the store does, or what follows. -/
theorem recvBufStore_fault_iff {α : Type} {buf x : Bytes} {next : Bytes → HttpRead α} :
    recvBufStore buf x next = .fault ↔
      recvBufSize < buf.length + x.length ∨
        (buf.length + x.length ≤ recvBufSize ∧ next (buf ++ x) = .fault) := by
  unfold recvBufStore
  split
  · next h =>
    constructor
    · exact fun hnext => .inr ⟨h, hnext⟩
    · rintro (hlt | ⟨-, hnext⟩)
      · omega
      · exact hnext
  · next h => exact ⟨fun _ => .inl (by omega), fun _ => rfl⟩

/-- The loop stores past the array when a text too long for it comes first. -/
theorem Unended.fault {afterCr : Bool} {l : List SockItem} {x : Bytes}
    (h : Unended atEnd afterCr l x) : ∀ buf : Bytes, buf.length ≤ recvBufSize →
      recvBufSize < buf.length + x.length → httpReadLoop atEnd afterCr buf l = .fault := by
  -- what a store that fits leaves for the induction hypothesis
  have hstore : ∀ {buf y x : Bytes} {next : Bytes → HttpRead Bytes},
      recvBufSize < buf.length + (y ++ x).length →
      (∀ buf' : Bytes, buf'.length ≤ recvBufSize → recvBufSize < buf'.length + x.length →
        next buf' = .fault) → recvBufStore buf y next = .fault := by
    intro buf y x next hlong ih
    rw [recvBufStore_fault_iff]
    rw [List.length_append] at hlong
    by_cases hfit : buf.length + y.length ≤ recvBufSize
    · refine .inr ⟨hfit, ih _ ?_ ?_⟩
      · rw [List.length_append]; exact hfit
      · rw [List.length_append]; omega
    · exact .inl (by omega)
  induction h with
  | nil afterCr l =>
    intro buf hbuf hlong
    rw [List.length_nil] at hlong
    omega
  | gap _ ih =>
    intro buf hbuf hlong
    rw [httpReadLoop]
    exact ih buf hbuf hlong
  | @byte b l x hb _ ih =>
    intro buf _ hlong
    rw [httpReadLoop, if_neg hb]
    exact hstore hlong ih
  | cr _ ih =>
    intro buf hbuf hlong
    rw [httpReadLoop, if_pos rfl]
    exact ih buf hbuf hlong
  | @pair b l x hb _ ih =>
    intro buf _ hlong
    rw [httpReadLoop, if_neg hb]
    exact hstore hlong ih
  | @line l x hend _ ih =>
    intro buf _ hlong
    rw [httpReadLoop, if_pos rfl, hend]
    exact hstore hlong ih

/-- And only then. -/
theorem unended_of_fault : ∀ {l : List SockItem} {afterCr : Bool} {buf : Bytes},
    httpReadLoop atEnd afterCr buf l = .fault →
      ∃ x, Unended atEnd afterCr l x ∧ recvBufSize < buf.length + x.length := by
  -- a store that does not fit is a text by itself; one that fits begins the text of what follows
  have hstore : ∀ {l l' : List SockItem} {afterCr : Bool} {buf y : Bytes},
      (∀ x, Unended atEnd false l x → Unended atEnd afterCr l' (y ++ x)) →
      (∀ {buf' : Bytes}, httpReadLoop atEnd false buf' l = .fault →
        ∃ x, Unended atEnd false l x ∧ recvBufSize < buf'.length + x.length) →
      recvBufStore buf y (fun buf => httpReadLoop atEnd false buf l) = .fault →
      ∃ x, Unended atEnd afterCr l' x ∧ recvBufSize < buf.length + x.length := by
    intro l l' afterCr buf y hy ih h
    rcases recvBufStore_fault_iff.mp h with hlong | ⟨-, hnext⟩
    · refine ⟨y ++ [], hy [] (.nil _ _), ?_⟩
      rw [List.append_nil]
      exact hlong
    · obtain ⟨x, hx, hlong⟩ := ih hnext
      refine ⟨y ++ x, hy x hx, ?_⟩
      rw [List.length_append] at hlong ⊢
      omega
  intro l
  induction l with
  | nil =>
    intro afterCr buf h
    rw [httpReadLoop] at h
    cases h
  | cons i l ih =>
    intro afterCr buf h
    cases i with
    | gap =>
      rw [httpReadLoop] at h
      obtain ⟨x, hx, hlong⟩ := ih h
      exact ⟨x, .gap hx, hlong⟩
    | stop e =>
      rw [httpReadLoop] at h
      cases h
    | val b =>
      cases afterCr with
      | false =>
        rw [httpReadLoop] at h
        split at h
        · next hb =>
          obtain ⟨x, hx, hlong⟩ := ih h
          exact ⟨x, hb ▸ .cr hx, hlong⟩
        · next hb => exact hstore (fun x hx => .byte hb hx) ih h
      | true =>
        rw [httpReadLoop] at h
        split at h
        · next hb =>
          subst hb
          split at h
          · cases h
          · next hend => exact hstore (fun x hx => .line hend hx) ih h
        · next hb => exact hstore (fun x hx => .pair hb hx) ih h

theorem httpReadLoop_fault_iff (l : List SockItem) :
    httpReadLoop atEnd false [] l ≠ .fault ↔
      ∀ x, Unended atEnd false l x → x.length ≤ recvBufSize := by
  constructor
  · intro h x hx
    by_contra hlong
    apply h
    apply hx.fault [] (Nat.zero_le _)
    rw [List.length_nil]
    omega
  · intro h hfault
    obtain ⟨x, hx, hlong⟩ := unended_of_fault hfault
    have hle := h x hx
    rw [List.length_nil] at hlong
    omega

end

/-- **When `recv_buf` is enough.** On what a client sends, in whatever pieces, neither reader stores
past `recv_buf` if and only if no text longer than the array comes before the end it looks for. -/
theorem recv_buf_bounds_iff (behind : UInt8) (l : List SockItem) :
    (httpReadRequestLine l ≠ .fault ↔
      ∀ x, Unended some false l x → x.length ≤ recvBufSize) ∧
    (httpReadRequestHead behind l ≠ .fault ↔
      ∀ x, Unended (peekCrlf behind) false l x → x.length ≤ recvBufSize) :=
  ⟨httpReadLoop_fault_iff l, httpReadLoop_fault_iff l⟩

/-- Bytes without CR have no end in them. -/
theorem unended_replicate (atEnd : List SockItem → Option (List SockItem)) {b : UInt8}
    (hb : b ≠ cr) (n : Nat) :
    Unended atEnd false (List.replicate n (.val b)) (List.replicate n b) := by
  induction n with
  | zero => exact .nil _ _
  | succ n ih => exact .byte hb ih

/-- One byte more than the array holds: the last one goes behind it. -/
theorem recv_buf_overrun :
    httpReadRequestLine (List.replicate 8193 (.val 97)) = .fault ∧
    ∀ behind, httpReadRequestHead behind (List.replicate 8193 (.val 97)) = .fault := by
  have hlong : recvBufSize < ([] : Bytes).length + (List.replicate 8193 (97 : UInt8)).length := by
    rw [List.length_replicate]
    decide
  refine ⟨?_, fun behind => ?_⟩
  · exact (unended_replicate _ (by decide) _).fault [] (Nat.zero_le _) hlong
  · exact (unended_replicate _ (by decide) _).fault [] (Nat.zero_le _) hlong

/-! ## The end of the request line -/

/-- Whether the reader has taken a CR and not its other half, after these bytes. -/
def crState : Bool → Bytes → Bool
  | afterCr, [] => afterCr
  | false, b :: l => crState (b == cr) l
  | true, _ :: l => crState false l

/-- The CR that is taken and not stored. -/
def pendingCr (afterCr : Bool) : Bytes := if afterCr then [cr] else []

/-- CR and another byte `x`, or neither, followed by one more byte. -/
theorem crState_concat (b : UInt8) : ∀ (l : Bytes) (afterCr : Bool),
    crState afterCr (l ++ [b]) = (!crState afterCr l && b == cr)
  | [], afterCr => by cases afterCr <;> simp [crState]
  | a :: l, afterCr => by
    cases afterCr with
    | false => exact crState_concat b l (a == cr)
    | true => exact crState_concat b l false

/-- A CR is taken at the end of the text unless the CRs at its end are even in number. -/
theorem crState_eq_even (l : Bytes) :
    crState false l = !decide (Even (l.rtakeWhile (· == cr)).length) := by
  induction l using List.reverseRecOn with
  | nil => rfl
  | append_singleton l b ih =>
    rw [crState_concat, ih]
    by_cases hb : b = cr
    · subst hb
      rw [List.rtakeWhile_concat_pos (· == cr) l cr (beq_self_eq_true cr), List.length_append,
        List.length_singleton]
      simp only [Nat.even_add_one, decide_not, Bool.not_not, beq_self_eq_true, Bool.and_true]
    · have hb' : ¬ (b == cr) = true := by simpa using hb
      rw [List.rtakeWhile_concat_neg (· == cr) l b hb']
      simp [hb]

/-- The reader on a text without CR LF that fits: everything is stored but a CR whose other half has
not come. -/
theorem httpReadLoop_noEnd {t : List SockItem} {x : Bytes} (h : Uncut t x) (rest : List SockItem) :
    ∀ (afterCr : Bool) (buf : Bytes), ¬ crlf <:+: pendingCr afterCr ++ x →
      (buf ++ pendingCr afterCr ++ x).length ≤ recvBufSize →
      ∃ buf', httpReadLoop some afterCr buf (t ++ rest) =
          httpReadLoop some (crState afterCr x) buf' rest ∧
        buf' ++ pendingCr (crState afterCr x) = buf ++ pendingCr afterCr ++ x := by
  induction h with
  | nil =>
    intro afterCr buf _ _
    exact ⟨buf, rfl, (List.append_nil _).symm⟩
  | gap _ ih =>
    intro afterCr buf hno hfit
    obtain ⟨buf', hloop, hbuf⟩ := ih afterCr buf hno hfit
    refine ⟨buf', ?_, hbuf⟩
    rw [List.cons_append, httpReadLoop, hloop]
  | @val t x a _ ih =>
    intro afterCr buf hno hfit
    -- the text behind `a` has no CR LF either
    have hno' : ¬ crlf <:+: x := fun hin =>
      hno (hin.trans ((List.suffix_cons a x).isInfix.trans (List.suffix_append _ _).isInfix))
    cases afterCr with
    | false =>
      by_cases ha : a = cr
      · subst ha
        have hstate : crState false (cr :: x) = crState true x := rfl
        rw [List.cons_append, httpReadLoop, if_pos rfl, hstate]
        obtain ⟨buf', hloop, hbuf⟩ := ih true buf hno (by
          simpa [pendingCr] using hfit)
        exact ⟨buf', hloop, by rw [hbuf]; simp [pendingCr]⟩
      · have hstate : crState false (a :: x) = crState false x := by
          show crState (a == cr) x = _
          rw [beq_eq_false_iff_ne.mpr ha]
        have hroom : buf.length + [a].length ≤ recvBufSize := by
          simp only [List.length_append, List.length_cons, pendingCr] at hfit ⊢
          simp only [List.length_nil] at hfit ⊢
          omega
        rw [List.cons_append, httpReadLoop, if_neg ha, hstate, recvBufStore, if_pos hroom]
        obtain ⟨buf', hloop, hbuf⟩ := ih false (buf ++ [a]) hno' (by
          simpa [pendingCr] using hfit)
        exact ⟨buf', hloop, by rw [hbuf]; simp [pendingCr]⟩
    | true =>
      have ha : a ≠ lf := by
        rintro rfl
        exact hno ⟨[], x, rfl⟩
      have hstate : crState true (a :: x) = crState false x := rfl
      have hroom : buf.length + [cr, a].length ≤ recvBufSize := by
        simp only [List.length_append, List.length_cons, pendingCr, if_true] at hfit ⊢
        simp only [List.length_nil] at hfit ⊢
        omega
      rw [List.cons_append, httpReadLoop, if_neg ha, hstate, recvBufStore, if_pos hroom]
      obtain ⟨buf', hloop, hbuf⟩ := ih false (buf ++ [cr, a]) hno' (by
        simpa [pendingCr] using hfit)
      exact ⟨buf', hloop, by rw [hbuf]; simp [pendingCr]⟩

/-- A CR at the end of a text without CR LF makes no CR LF. -/
theorem crlf_not_infix_concat {x : Bytes} (h : ¬ crlf <:+: x) : ¬ crlf <:+: x ++ [cr] := by
  rintro ⟨a, b, hab⟩
  rcases List.eq_nil_or_concat b with rfl | ⟨b, c, rfl⟩
  · -- it would end in LF
    have hlast := congrArg List.getLast? hab
    rw [List.append_nil, show a ++ crlf = (a ++ [cr]) ++ [lf] by simp [crlf],
      List.getLast?_concat, List.getLast?_concat] at hlast
    exact absurd (Option.some.inj hlast) (by decide)
  · apply h
    rw [List.concat_eq_append, ← List.append_assoc] at hab
    exact ⟨a, b, (List.append_inj' hab rfl).1⟩

/-- What holds where the loop ends, and is carried back over each of its turns, holds where it
starts. -/
theorem httpReadLoop_done_induction {atEnd : List SockItem → Option (List SockItem)} {x : Bytes}
    {rest : List SockItem} {motive : Bool → Bytes → List SockItem → Prop}
    (finish : ∀ {l}, atEnd l = some rest → motive true x (.val lf :: l))
    (gap : ∀ {afterCr buf l}, motive afterCr buf l → motive afterCr buf (.gap :: l))
    (byte : ∀ {b buf l}, b ≠ cr → (buf ++ [b]).length ≤ recvBufSize →
      motive false (buf ++ [b]) l → motive false buf (.val b :: l))
    (takeCr : ∀ {buf l}, motive true buf l → motive false buf (.val cr :: l))
    (pair : ∀ {b buf l}, b ≠ lf → (buf ++ [cr, b]).length ≤ recvBufSize →
      motive false (buf ++ [cr, b]) l → motive true buf (.val b :: l))
    (line : ∀ {buf l}, atEnd l = none → (buf ++ [lf]).length ≤ recvBufSize →
      motive false (buf ++ [lf]) l → motive true buf (.val lf :: l)) :
    ∀ {l : List SockItem} {afterCr : Bool} {buf : Bytes},
      httpReadLoop atEnd afterCr buf l = .done x rest → motive afterCr buf l := by
  have hstore : ∀ {buf y : Bytes} {next : Bytes → HttpRead Bytes},
      recvBufStore buf y next = .done x rest →
        (buf ++ y).length ≤ recvBufSize ∧ next (buf ++ y) = .done x rest := by
    intro buf y next h
    unfold recvBufStore at h
    split at h
    · next hfit =>
      rw [List.length_append]
      exact ⟨hfit, h⟩
    · cases h
  intro l
  induction l with
  | nil =>
    intro afterCr buf h
    rw [httpReadLoop] at h
    cases h
  | cons i l ih =>
    intro afterCr buf h
    cases i with
    | gap => rw [httpReadLoop] at h; exact gap (ih h)
    | stop e => rw [httpReadLoop] at h; cases h
    | val b =>
      cases afterCr with
      | false =>
        rw [httpReadLoop] at h
        split at h
        · next hb => exact hb ▸ takeCr (ih h)
        · next hb =>
          obtain ⟨hfit, hnext⟩ := hstore h
          exact byte hb hfit (ih hnext)
      | true =>
        rw [httpReadLoop] at h
        split at h
        · next hb =>
          subst hb
          split at h
          · next hend => cases h; exact finish hend
          · next hend =>
            obtain ⟨hfit, hnext⟩ := hstore h
            exact line hend hfit (ih hnext)
        · next hb =>
          obtain ⟨hfit, hnext⟩ := hstore h
          exact pair hb hfit (ih hnext)

/-- What has been stored stays in front. -/
theorem httpReadLoop_begins {atEnd : List SockItem → Option (List SockItem)} {afterCr : Bool}
    {l rest : List SockItem} {buf x : Bytes}
    (h : httpReadLoop atEnd afterCr buf l = .done x rest) : buf <+: x := by
  refine httpReadLoop_done_induction (motive := fun _ buf _ => buf <+: x) ?_ ?_ ?_ ?_ ?_ ?_ h
  · exact fun _ => List.prefix_refl x
  · exact fun h => h
  · exact fun _ _ h => (List.prefix_append ..).trans h
  · exact fun h => h
  · exact fun _ _ h => (List.prefix_append ..).trans h
  · exact fun _ _ h => (List.prefix_append ..).trans h

/-- What is returned fits the array. -/
theorem httpReadLoop_length {atEnd : List SockItem → Option (List SockItem)}
    {l rest : List SockItem} {x : Bytes} (h : httpReadLoop atEnd false [] l = .done x rest) :
    x.length ≤ recvBufSize := by
  refine httpReadLoop_done_induction (motive := fun _ buf _ =>
    buf.length ≤ recvBufSize → x.length ≤ recvBufSize) ?_ ?_ ?_ ?_ ?_ ?_ h (Nat.zero_le _)
  · exact fun _ hx => hx
  · exact fun ih => ih
  · exact fun _ hfit ih _ => ih hfit
  · exact fun ih => ih
  · exact fun _ hfit ih _ => ih hfit
  · exact fun _ hfit ih _ => ih hfit

/-- **When the request line ends at the first CR LF.** Of a stream whose first CR LF is there and
begins within the array, `http_read_request_line` takes the bytes up to the pair as the request line
and leaves what is behind the pair, if and only if an even number of CRs stands right before it. -/
theorem request_line_ends_iff (line : Bytes) (t rest : List SockItem)
    (harrive : Uncut t (line ++ crlf)) (hfirst : ¬ crlf <:+: line)
    (hlen : line.length < recvBufSize) :
    httpReadRequestLine (t ++ rest) = .done line rest ↔
      Even (line.rtakeWhile (· == cr)).length := by
  -- up to the CR of the pair, then its LF
  have hsplit : line ++ crlf = (line ++ [cr]) ++ [lf] := by simp [crlf]
  rw [hsplit] at harrive
  obtain ⟨t₁, t₂, rfl, h₁, h₂⟩ := harrive.split
  obtain ⟨buf, hloop, hbuf⟩ := httpReadLoop_noEnd h₁ (t₂ ++ rest) false []
    (crlf_not_infix_concat hfirst) (by simpa [pendingCr] using hlen)
  have hstate : crState false (line ++ [cr]) =
      decide (Even (line.rtakeWhile (· == cr)).length) := by
    rw [crState_concat, crState_eq_even, beq_self_eq_true, Bool.and_true, Bool.not_not]
  have hlf : ∀ afterCr buf, httpReadLoop some afterCr buf (t₂ ++ rest) =
      httpReadLoop some afterCr buf (.val lf :: rest) := by
    intro afterCr buf
    refine h₂.cons_induction
      (motive := fun t => httpReadLoop some afterCr buf (t ++ rest) = _) ?_ ?_
    · intro t ih
      rw [List.cons_append, httpReadLoop, ih]
    · intro t h
      cases h
      rfl
  rw [httpReadRequestLine, List.append_assoc, hloop, hlf]
  by_cases heven : Even (line.rtakeWhile (· == cr)).length
  · rw [hstate, decide_eq_true heven] at hbuf ⊢
    have hbuf' : buf = line := List.append_cancel_right (hbuf.trans (by simp [pendingCr]))
    rw [httpReadLoop, if_pos rfl, hbuf']
    exact ⟨fun _ => heven, fun _ => rfl⟩
  · -- the CR of the pair is the second half of another pair, and LF a byte of the line
    rw [hstate, decide_eq_false heven] at hbuf ⊢
    have hbuf' : buf = line ++ [cr] := by simpa [pendingCr] using hbuf
    refine ⟨fun hdone => absurd hdone ?_, fun h => absurd h heven⟩
    intro hdone
    have hle := (httpReadLoop_begins hdone).length_le
    rw [hbuf', List.length_append, List.length_singleton] at hle
    omega

/-- `"a"`, two CRs, then CR LF. -/
theorem request_line_ends_iff_twoCrs :
    httpReadRequestLine ((([97, cr, cr] ++ crlf).map .val) ++ [.val 98]) =
        .done [97, cr, cr] [.val 98] ↔
      Even (([97, cr, cr] : Bytes).rtakeWhile (· == cr)).length :=
  request_line_ends_iff [97, cr, cr] _ [.val 98] (.whole _) (by decide) (by decide)

/-- One CR in front of CR LF: the reader takes the two CRs for a pair and passes the end. -/
theorem request_line_overlooks :
    httpReadRequestLine ((([97, cr] ++ crlf).map .val) ++ [.val 98]) ≠
      .done [97, cr] [.val 98] := by decide

/-! ## The end of the header section -/

/-- How many bytes `strcmp` reads from the first of two strings. -/
def strcmpReads : Bytes → Bytes → Nat
  | a :: s, b :: t => if a = b ∧ a ≠ 0 then strcmpReads s t + 1 else 1
  | _, _ => 0

/-- Whether `strcmp` finds the strings equal. -/
def strcmpEq : Bytes → Bytes → Bool
  | a :: s, b :: t => a == b && (a == 0 || strcmpEq s t)
  | _, _ => false

/-- `char buf[2] = { 0 }` after `recv(c->fd, buf, 2, MSG_PEEK)`. -/
def peekBuf (l : List SockItem) : Bytes :=
  let x := (available 2 l).1
  x ++ List.replicate (2 - x.length) 0

/-- The buffers `http_read_request_head` compares with CR LF, in order; `afterCr` as in
`httpReadLoop`. -/
def headPeeks (behind : UInt8) : Bool → List SockItem → List Bytes
  | _, [] => []
  | afterCr, .gap :: l => headPeeks behind afterCr l
  | _, .stop _ :: _ => []
  | false, .val b :: l => headPeeks behind (b == cr) l
  | true, .val b :: l =>
    if b = lf then
      peekBuf l :: match peekCrlf behind l with
        | some _ => []
        | none => headPeeks behind false l
    else headPeeks behind false l

/-- `strcmp` with CR LF: two bytes and a NUL. -/
theorem strcmpEq_crlf (a b behind : UInt8) :
    strcmpEq [a, b, behind] (crlf ++ [0]) = decide (a = cr ∧ b = lf ∧ behind = 0) := by
  have hcr : (cr == 0) = false := by decide
  have hlf : (lf == 0) = false := by decide
  by_cases ha : a = cr
  · by_cases hb : b = lf
    · by_cases hc : behind = 0
      · simp [strcmpEq, crlf, ha, hb, hc]
      · simp [strcmpEq, crlf, ha, hb, hc, hcr, hlf]
    · simp [strcmpEq, crlf, ha, hb, hcr]
  · simp [strcmpEq, crlf, ha]

/-- The loop ends where `strcmp`, which finds `behind` after the two bytes of the buffer, says so. -/
theorem peekCrlf_isSome (behind : UInt8) (l : List SockItem) :
    (peekCrlf behind l).isSome = strcmpEq (peekBuf l ++ [behind]) (crlf ++ [0]) := by
  have hshort : ∀ a : UInt8, decide (a = cr ∧ (0 : UInt8) = lf ∧ behind = 0) = false := by
    intro a
    rw [decide_eq_false_iff_not]
    exact fun h => absurd h.2.1 (by decide)
  match l with
  | [] => exact ((strcmpEq_crlf 0 0 behind).trans (hshort 0)).symm
  | .gap :: _ => exact ((strcmpEq_crlf 0 0 behind).trans (hshort 0)).symm
  | .stop _ :: _ => exact ((strcmpEq_crlf 0 0 behind).trans (hshort 0)).symm
  | [.val a] => exact ((strcmpEq_crlf a 0 behind).trans (hshort a)).symm
  | .val a :: .gap :: _ => exact ((strcmpEq_crlf a 0 behind).trans (hshort a)).symm
  | .val a :: .stop _ :: _ => exact ((strcmpEq_crlf a 0 behind).trans (hshort a)).symm
  | .val a :: .val b :: l =>
    refine Eq.trans ?_ (strcmpEq_crlf a b behind).symm
    rw [peekCrlf]
    by_cases h : a = cr ∧ b = lf ∧ behind = 0
    · rw [if_pos h, decide_eq_true h]
      rfl
    · rw [if_neg h, decide_eq_false h]
      rfl

/-- Where it ends, `strcmp` has read a third byte. -/
theorem strcmpReads_of_peek {behind : UInt8} {l rest : List SockItem}
    (h : peekCrlf behind l = some rest) :
    strcmpReads (peekBuf l ++ [behind]) (crlf ++ [0]) = 3 := by
  unfold peekCrlf at h
  split at h
  · obtain ⟨⟨rfl, rfl, rfl⟩, -⟩ := Option.ite_none_right_eq_some.mp h
    rfl
  · cases h

/-- The reader ends on a peek that it reads past. -/
theorem headPeeks_of_done {behind : UInt8} {afterCr : Bool} {l rest : List SockItem}
    {buf x : Bytes} (h : httpReadLoop (peekCrlf behind) afterCr buf l = .done x rest) :
    ∃ p ∈ headPeeks behind afterCr l, strcmpReads (p ++ [behind]) (crlf ++ [0]) = 3 := by
  refine httpReadLoop_done_induction (motive := fun afterCr _ l =>
    ∃ p ∈ headPeeks behind afterCr l, strcmpReads (p ++ [behind]) (crlf ++ [0]) = 3)
    ?_ ?_ ?_ ?_ ?_ ?_ h
  · intro l hpeek
    rw [headPeeks, if_pos rfl]
    exact ⟨_, List.mem_cons_self .., strcmpReads_of_peek hpeek⟩
  · intro afterCr buf l ih
    rw [headPeeks]
    exact ih
  · intro b buf l hb _ ih
    rw [headPeeks, beq_eq_false_iff_ne.mpr hb]
    exact ih
  · intro buf l ih
    rw [headPeeks, beq_self_eq_true]
    exact ih
  · intro b buf l hb _ ih
    rw [headPeeks, if_neg hb]
    exact ih
  · intro buf l hpeek _ ih
    rw [headPeeks, if_pos rfl, hpeek]
    obtain ⟨p, hp, hreads⟩ := ih
    exact ⟨p, List.mem_cons_of_mem _ hp, hreads⟩

/-- The bytes of a header section: the lines, each with its CR LF, and the empty line. -/
def headSection (lines : List Bytes) : Bytes := lines.flatMap (· ++ crlf) ++ crlf

/-- `http_read_request_head` takes the section and nothing behind it, and what it stores splits into
the lines. -/
def ReadsSection (behind : UInt8) (lines : List Bytes) (following : Bytes) : Prop :=
  ∃ head, httpReadRequestHead behind ((headSection lines ++ following).map .val) =
      .done head (following.map .val) ∧
    tokens (crlf.contains ·) (cstr head) = lines

/-- Besides, it reads no byte behind its two-byte buffer. -/
def ReadsSectionExactly (behind : UInt8) (lines : List Bytes) (following : Bytes) : Prop :=
  ReadsSection behind lines following ∧
    ∀ p ∈ headPeeks behind false ((headSection lines ++ following).map .val),
      strcmpReads (p ++ [behind]) (crlf ++ [0]) ≤ 2

/-- **No header section is read exactly.** Whatever its lines, what follows it and what lies behind
the peek buffer: to end, the reader has `strcmp` read a third byte of the two. -/
theorem head_never_exact (behind : UInt8) (lines : List Bytes) (following : Bytes) :
    ¬ ReadsSectionExactly behind lines following := by
  rintro ⟨⟨head, hdone, -⟩, hpeeks⟩
  obtain ⟨p, hp, hreads⟩ := headPeeks_of_done hdone
  have hle := hpeeks p hp
  omega

/-- One header line. -/
theorem head_readsBehind : ¬ ReadsSectionExactly 0 [ascii "Host: a"] (ascii "body") := by
  rintro ⟨-, hpeeks⟩
  have hle := hpeeks crlf (by decide)
  exact absurd hle (by decide)

/-- The reader ends at an empty line, four bytes at least from where it starts, and finds a 0 behind
its buffer. -/
theorem httpReadLoop_done {behind : UInt8} {afterCr : Bool} {l rest : List SockItem}
    {buf x : Bytes} (h : httpReadLoop (peekCrlf behind) afterCr buf l = .done x rest) :
    behind = 0 ∧ rest.length + (if afterCr then 3 else 4) ≤ l.length := by
  refine httpReadLoop_done_induction (motive := fun afterCr _ l =>
    behind = 0 ∧ rest.length + (if afterCr then 3 else 4) ≤ l.length) ?_ ?_ ?_ ?_ ?_ ?_ h
  · intro l hpeek
    unfold peekCrlf at hpeek
    split at hpeek
    · obtain ⟨⟨-, -, hbehind⟩, hrest⟩ := Option.ite_none_right_eq_some.mp hpeek
      obtain rfl := Option.some.inj hrest
      exact ⟨hbehind, Nat.le_refl _⟩
    · cases hpeek
  · exact fun ih => ⟨ih.1, Nat.le_succ_of_le ih.2⟩
  · exact fun _ _ ih => ⟨ih.1, Nat.le_succ_of_le ih.2⟩
  · exact fun ih => ⟨ih.1, Nat.succ_le_succ ih.2⟩
  · exact fun _ _ ih => ⟨ih.1, Nat.le_succ_of_le (Nat.le_of_succ_le ih.2)⟩
  · exact fun _ _ ih => ⟨ih.1, Nat.le_succ_of_le (Nat.le_of_succ_le ih.2)⟩

/-- The lines with LF between them are no longer than the lines with CR LF after them. -/
theorem length_intercalate_le : ∀ lines : List Bytes,
    (List.intercalate [lf] lines).length ≤ (lines.flatMap (· ++ crlf)).length
  | [] => Nat.zero_le _
  | [l] => by simp
  | l :: m :: ls => by
    have ih := length_intercalate_le (m :: ls)
    have hcrlf : crlf.length = 2 := rfl
    rw [List.intercalate_cons_cons, List.flatMap_cons, List.length_append, List.length_append,
      List.length_append, List.length_append, List.length_singleton]
    omega

/-- **What of a header section is read.** Of lines without CR and LF that fit the array,
`http_read_request_head` takes exactly the section and keeps exactly the lines, if and only if there
is a line, a 0 lies behind the peek buffer, and no line has a NUL. -/
theorem head_read_iff {behind : UInt8} {lines : List Bytes} {following : Bytes}
    (hlines : ∀ m ∈ lines, m ≠ [] ∧ ∀ b ∈ m, b ≠ cr ∧ b ≠ lf)
    (hfit : (headSection lines).length ≤ recvBufSize) :
    ReadsSection behind lines following ↔
      lines ≠ [] ∧ behind = 0 ∧ ∀ m ∈ lines, (0 : UInt8) ∉ m := by
  constructor
  · rintro ⟨head, hdone, hsplit⟩
    obtain ⟨hbehind, hlen⟩ := httpReadLoop_done hdone
    refine ⟨?_, hbehind, ?_⟩
    · rintro rfl
      simp only [List.length_map, List.length_append, headSection, List.flatMap_nil,
        List.nil_append, Bool.false_eq_true, if_false] at hlen
      have hcrlf : crlf.length = 2 := rfl
      omega
    · intro m hm h0
      rw [← hsplit] at hm
      exact not_mem_cstr head ((sublist_of_mem_tokens hm).mem h0)
  · rintro ⟨hne, hbehind, hnul⟩
    obtain ⟨l, ls, rfl⟩ := List.exists_cons_of_ne_nil hne
    have hhead : (List.intercalate [lf] (l :: ls)).length ≤ recvBufSize := by
      apply Nat.le_trans (length_intercalate_le _)
      rw [headSection, List.length_append] at hfit
      omega
    have hstream : (headSection (l :: ls) ++ following).map Item.val =
        (((l :: ls).flatMap (· ++ crlf)).map Item.val ++
          .val cr :: .val lf :: following.map .val : List SockItem) := by
      simp [headSection, crlf]
    refine ⟨List.intercalate [lf] (l :: ls), ?_, ?_⟩
    · have htext : ∀ m ∈ l :: ls, m ≠ [] ∧ ∀ b ∈ m, b ≠ cr := fun m hm =>
        ⟨(hlines m hm).1, fun b hb => ((hlines m hm).2 b hb).1⟩
      have hloop : httpReadLoop (peekCrlf behind) false [] _ = recvBufStore [] _ _ :=
        httpReadLoop_head hbehind ls (.whole _) htext (Nat.zero_le _) (following.map .val)
      rw [httpReadRequestHead, hstream, hloop, recvBufStore, if_pos (by simpa using hhead)]
      rfl
    · have htokens : ∀ m ∈ l :: ls, m ≠ [] ∧ ∀ b ∈ m, crlf.contains b = false := by
        intro m hm
        refine ⟨(hlines m hm).1, fun b hb => ?_⟩
        obtain ⟨hcr, hlf⟩ := (hlines m hm).2 b hb
        exact crlf_contains_of_ne hcr hlf
      rw [(cstr_eq_self_iff _).mpr (nul_notMem_intercalate (by decide) _ hnul),
        tokens_intercalate (by decide) _ htokens]

end Mgx
