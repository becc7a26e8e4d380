import Mgx.Printf

/-
  The end of the format.

  Only the outer loop of `mgx_vslprintf` looks for the NUL. A directive moves `fmt`
  over digits, modifiers and the conversion without a test of its own: that the
  loops over digits and modifiers stop at the NUL is luck of the characters, and the
  `default` of the conversions copies whatever stands there.

  Correspondence (C++ ↔ Lean), `app/mgx_printf.cpp`:
    the state at `while (*fmt && buf < last)`   ↔ `FmtTest`
    the body of the loop                        ↔ `FmtTest.turn`
    where `fmt` goes between `%` and the
      conversion                                ↔ `skipModifiers`, `skipDirective`

  A format is the memory up to its NUL, and nothing lies behind it: a read that
  goes on finds the end of the list.

  What is proved: `format_inside_iff`. The formatter stays inside the format and
  copies no NUL of it, for all arguments and all room, exactly when no directive is
  cut short. Where the loop comes to a test behind the format, `mgx_vslprintf` is
  undefined (`FmtTest.Reaches.undefined`).
-/
namespace Mgx
open Bounded CMem

/-- The state at the test of the loop: `last - buf`, the format and the arguments from here on. -/
structure FmtTest where
  room : Nat
  fmt : Bytes
  args : List VaArg

/-- The test succeeds. -/
def FmtTest.GoesOn (t : FmtTest) : Prop := t.fmt.head? ≠ some 0 ∧ t.room ≠ 0

/-- The body of the loop: what it stores, and the state at the next test. -/
def FmtTest.turn (t : FmtTest) : Option (Printed × FmtTest) :=
  match t.fmt with
  | [] => none
  | b :: fmt =>
    if b = ch '%' then
      (parseDirective fmt t.args).bind fun (d, fmt, args) =>
        match fmt with
        | [] => none
        | conv :: fmt =>
          (convert d conv args).bind fun (o, args) =>
            (o.write t.room).map fun out => (⟨out, 1⟩, ⟨t.room - out.length, fmt, args⟩)
    else some (⟨[b], 0⟩, ⟨t.room - 1, fmt, t.args⟩)

/-- The loop comes from one test to another. -/
inductive FmtTest.Reaches : FmtTest → FmtTest → Prop
  | here (t : FmtTest) : Reaches t t
  | turn {t u v : FmtTest} {out : Printed} (hgo : t.GoesOn) (hturn : t.turn = some (out, u))
      (h : Reaches u v) : Reaches t v

/-- `fmt` behind the modifiers and the precision, if it is still in the format. -/
def skipModifiers : Bytes → Option Bytes
  | [] => none
  | b :: fmt =>
    if b = ch 'u' ∨ b = ch 'X' ∨ b = ch 'x' ∨ b = ch '*' then skipModifiers fmt
    else if b = ch '.' then (readNumber 0 fmt).map Prod.snd
    else some (b :: fmt)

/-- `fmt` at the conversion of the directive whose `%` lies in front of it. -/
def skipDirective (fmt : Bytes) : Option Bytes :=
  fmt.head?.bind fun _ => (readNumber 0 fmt).bind fun (_, fmt) => skipModifiers fmt

/-- The test, and a directive taken behind it, read within the format only. -/
def FmtTest.ReadsInside (t : FmtTest) : Prop :=
  t.fmt ≠ [] ∧ (t.GoesOn → t.fmt.head? = some (ch '%') → skipDirective t.fmt.tail ≠ none)

/-- A directive is taken whose conversion character is the NUL. -/
def FmtTest.CopiesNul (t : FmtTest) : Prop :=
  t.GoesOn ∧ t.fmt.head? = some (ch '%') ∧
    ∃ d fmt args, parseDirective t.fmt.tail t.args = some (d, 0 :: fmt, args)

/-- The formatter reads inside the format all along, and copies no NUL of it. -/
def FormatInside (room : Nat) (fmt : Bytes) (args : List VaArg) : Prop :=
  ∀ t, FmtTest.Reaches ⟨room, fmt, args⟩ t → t.ReadsInside ∧ ¬ t.CopiesNul

/-- Up to its NUL the format has no directive that is cut short by it. -/
inductive WholeDirectives : Bytes → Prop
  | nul (fmt : Bytes) : WholeDirectives (0 :: fmt)
  | char {b : UInt8} {fmt : Bytes} (hnul : b ≠ 0) (hchar : b ≠ ch '%')
      (h : WholeDirectives fmt) : WholeDirectives (b :: fmt)
  | directive {fmt fmt' : Bytes} {conv : UInt8} (hskip : skipDirective fmt = some (conv :: fmt'))
      (hconv : conv ≠ 0) (h : WholeDirectives fmt') : WholeDirectives (ch '%' :: fmt)

/-! ## The loop, turn by turn -/

/-- The loop is its test and its turns. -/
theorem vslprintfLoop_turn (turns : Nat) {t : FmtTest} (hgo : t.GoesOn) :
    vslprintfLoop (turns + 1) t.room t.fmt t.args = t.turn.bind fun (out, u) =>
      (vslprintfLoop turns u.room u.fmt u.args).map (Printed.after out.text out.directives) := by
  obtain ⟨room, fmt, args⟩ := t
  obtain ⟨hnul, hroom⟩ := hgo
  cases fmt with
  | nil => rfl
  | cons b fmt =>
    have hgoes : ¬ (b = 0 ∨ room = 0) := by
      rintro (hb | hr)
      · exact hnul (congrArg some hb)
      · exact hroom hr
    simp only [vslprintfLoop, FmtTest.turn, if_neg hgoes]
    split
    · cases parseDirective fmt args with
      | none => rfl
      | some p =>
        obtain ⟨d, fmt', args'⟩ := p
        cases fmt' with
        | nil => rfl
        | cons conv fmt' =>
          simp only [Option.bind_some]
          cases convert d conv args' with
          | none => rfl
          | some q =>
            simp only [Option.bind_some]
            cases q.1.write room <;> rfl
    · rfl

/-- Where the loop comes to a test behind the format, what it does is undefined. -/
theorem FmtTest.Reaches.undefined {t u : FmtTest} (h : t.Reaches u) (hend : u.fmt = []) :
    ∀ turns, vslprintfLoop turns t.room t.fmt t.args = none := by
  induction h with
  | here t =>
    intro turns
    rw [hend]
    cases turns <;> rfl
  | turn hgo hturn h ih =>
    intro turns
    cases turns with
    | zero => rfl
    | succ turns =>
      have hrest := ih hend turns
      rw [vslprintfLoop_turn turns hgo, hturn]
      simp only [Option.bind_some, hrest, Option.map_none]

/-! ## Where a directive moves `fmt` -/

theorem readNumber_snd (n m : Nat) : ∀ fmt,
    (readNumber n fmt).map Prod.snd = (readNumber m fmt).map Prod.snd
  | [] => rfl
  | b :: fmt => by
    rw [readNumber, readNumber]
    split
    · exact readNumber_snd ..
    · rfl

/-- The arguments and the variables have no part in it. -/
theorem modifiers_skip {d d' : Directive} {fmt fmt' : Bytes} {args args' : List VaArg}
    (h : modifiers d fmt args = some (d', fmt', args')) : skipModifiers fmt = some fmt' := by
  induction fmt generalizing d args with
  | nil => cases h
  | cons b fmt ih =>
    unfold modifiers at h
    unfold skipModifiers
    split at h
    · next hb => exact (if_pos (.inl hb)).trans (ih h)
    split at h
    · next hb => exact (if_pos (.inr (.inl hb))).trans (ih h)
    split at h
    · next hb => exact (if_pos (.inr (.inr (.inl hb)))).trans (ih h)
    next hu hX hx =>
    split at h
    · next hb =>
      have hstar : ¬ b = ch '*' := by
        rw [hb]
        decide
      rw [if_neg (by simp [hu, hX, hx, hstar]), if_pos hb, readNumber_snd 0 d.fracWidth]
      obtain ⟨p, hread, heq⟩ := Option.map_eq_some_iff.mp h
      cases heq
      rw [hread]
      rfl
    next hdot =>
    split at h
    · next hb =>
      rw [if_pos (.inr (.inr (.inr hb)))]
      split at h
      · exact ih h
      · cases h
    · next hstar =>
      cases h
      rw [if_neg (by simp [hu, hX, hx, hstar]), if_neg hdot]

theorem parseDirective_skip {d : Directive} {fmt fmt' : Bytes} {args args' : List VaArg}
    (h : parseDirective fmt args = some (d, fmt', args')) : skipDirective fmt = some fmt' := by
  obtain ⟨b, hb, h⟩ := Option.bind_eq_some_iff.mp h
  obtain ⟨⟨width, rest⟩, hread, h⟩ := Option.bind_eq_some_iff.mp h
  simp only [skipDirective, hb, hread, Option.bind_some]
  exact modifiers_skip h

/-! ## Whole directives -/

theorem WholeDirectives.inside {t : FmtTest} (h : WholeDirectives t.fmt) :
    t.ReadsInside ∧ ¬ t.CopiesNul := by
  obtain ⟨room, fmt, args⟩ := t
  cases h with
  | nul fmt =>
    refine ⟨⟨by simp, fun hgo => absurd rfl hgo.1⟩, fun hcopy => absurd rfl hcopy.1.1⟩
  | char hnul hchar h =>
    have hhead : ∀ fmt, (_ :: fmt : Bytes).head? ≠ some (ch '%') := fun _ heq =>
      hchar (Option.some.inj heq)
    exact ⟨⟨by simp, fun _ heq => absurd heq (hhead _)⟩, fun hcopy => hhead _ hcopy.2.1⟩
  | directive hskip hconv h =>
    refine ⟨⟨by simp, fun _ _ => ?_⟩, fun hcopy => ?_⟩
    · rw [List.tail_cons, hskip]
      simp
    · obtain ⟨-, -, d, fmt, args, hparse⟩ := hcopy
      rw [List.tail_cons] at hparse
      have hnul := parseDirective_skip hparse
      rw [hskip] at hnul
      cases hnul
      exact hconv rfl

/-- A turn goes on behind the directive it takes. -/
theorem WholeDirectives.turn {t u : FmtTest} {out : Printed} (h : WholeDirectives t.fmt)
    (hgo : t.GoesOn) (hturn : t.turn = some (out, u)) : WholeDirectives u.fmt := by
  obtain ⟨room, fmt, args⟩ := t
  cases h with
  | nul fmt => exact absurd rfl hgo.1
  | char hnul hchar h =>
    simp only [FmtTest.turn, if_neg hchar, Option.some.injEq, Prod.mk.injEq] at hturn
    obtain ⟨-, rfl⟩ := hturn
    exact h
  | directive hskip hconv h =>
    simp only [FmtTest.turn, if_true] at hturn
    obtain ⟨⟨d, fmt', args'⟩, hparse, hturn⟩ := Option.bind_eq_some_iff.mp hturn
    have hsame := parseDirective_skip hparse
    rw [hskip] at hsame
    cases hsame
    obtain ⟨⟨o, args''⟩, -, hturn⟩ := Option.bind_eq_some_iff.mp hturn
    obtain ⟨text, -, hturn⟩ := Option.map_eq_some_iff.mp hturn
    cases hturn
    exact h

theorem WholeDirectives.reaches {t u : FmtTest} (h : WholeDirectives t.fmt) (hr : t.Reaches u) :
    WholeDirectives u.fmt := by
  induction hr with
  | here t => exact h
  | turn hgo hturn hr ih => exact ih (h.turn hgo hturn)

/-! ## Cut short -/

/-- With these arguments, and room for more than `n` bytes, the formatter comes to a directive that
is cut short. -/
inductive CutAt : Bytes → List VaArg → Nat → Prop
  | here {fmt fmt' : Bytes} {args args' : List VaArg} {d : Directive}
      (hparse : parseDirective fmt args = some (d, 0 :: fmt', args')) :
      CutAt (ch '%' :: fmt) args 0
  | char {b : UInt8} {fmt : Bytes} {args : List VaArg} {n : Nat} (hnul : b ≠ 0)
      (hchar : b ≠ ch '%') (h : CutAt fmt args n) : CutAt (b :: fmt) args (n + 1)
  | directive {fmt fmt' : Bytes} {args args' args'' : List VaArg} {d : Directive} {conv : UInt8}
      {o : Output} {n : Nat} (hparse : parseDirective fmt args = some (d, conv :: fmt', args'))
      (hconv : conv ≠ 0) (hout : convert d conv args' = some (o, args'')) (hread : o.Readable)
      (h : CutAt fmt' args'' n) : CutAt (ch '%' :: fmt) args (o.text.length + n)

theorem CutAt.reaches {fmt : Bytes} {args : List VaArg} {n : Nat} (h : CutAt fmt args n) :
    ∀ room, n < room → ∃ t, FmtTest.Reaches ⟨room, fmt, args⟩ t ∧ t.CopiesNul := by
  have hpercent : ch '%' ≠ 0 := by decide
  induction h with
  | here hparse =>
    intro room hroom
    refine ⟨_, .here _, ⟨?_, by show room ≠ 0; omega⟩, rfl, _, _, _, hparse⟩
    exact fun heq => hpercent (Option.some.inj heq)
  | @char b fmt args n hnul hchar h ih =>
    intro room hroom
    obtain ⟨t, hreach, hcopy⟩ := ih (room - 1) (by omega)
    have hturn : FmtTest.turn ⟨room, b :: fmt, args⟩ = some (⟨[b], 0⟩, ⟨room - 1, fmt, args⟩) :=
      if_neg hchar
    exact ⟨t, .turn ⟨fun heq => hnul (Option.some.inj heq), by show room ≠ 0; omega⟩ hturn hreach,
      hcopy⟩
  | @directive fmt fmt' args args' args'' d conv o n hparse hconv hout hread h ih =>
    intro room hroom
    obtain ⟨t, hreach, hcopy⟩ := ih (room - o.text.length) (by omega)
    have hwrite : o.write room = some o.text := by
      rw [Output.fills hread room (by omega), List.take_of_length_le (by omega)]
    have hturn : FmtTest.turn ⟨room, ch '%' :: fmt, args⟩ =
        some (⟨o.text, 1⟩, ⟨room - o.text.length, fmt', args''⟩) := by
      simp only [FmtTest.turn, if_true, hparse, hout, hwrite, Option.bind_some, Option.map_some]
    exact ⟨t, .turn ⟨fun heq => hpercent (Option.some.inj heq), by show room ≠ 0; omega⟩ hturn
      hreach, hcopy⟩

theorem readNumber_of_mem {fmt : Bytes} (h0 : 0 ∈ fmt) (n : Nat) :
    ∃ m fmt', readNumber n fmt = some (m, fmt') ∧ 0 ∈ fmt' ∧ fmt'.length ≤ fmt.length := by
  induction fmt generalizing n with
  | nil => cases h0
  | cons b fmt ih =>
    rw [readNumber]
    split
    · next hdigit =>
      have hmem : 0 ∈ fmt := by
        apply (List.mem_cons.mp h0).resolve_left
        intro hb
        rw [← hb] at hdigit
        revert hdigit
        decide
      obtain ⟨m, fmt', hread, h0', hlen⟩ := ih hmem ((n * 10 + (b - ch '0').toNat) % 2 ^ 64)
      exact ⟨m, fmt', hread, h0', Nat.le_succ_of_le hlen⟩
    · exact ⟨n, b :: fmt, rfl, h0, Nat.le_refl _⟩

/-- What is neither a precision nor the conversion is passed over, given an argument for `*`. -/
theorem modifiers_over {b : UInt8} (hb : b = ch 'u' ∨ b = ch 'X' ∨ b = ch 'x' ∨ b = ch '*')
    (d : Directive) : ∃ d' pre, ∀ fmt args,
      modifiers d (b :: fmt) (pre ++ args) = modifiers d' fmt args := by
  rcases hb with rfl | rfl | rfl | rfl
  · exact ⟨{ d with sign := false }, [], fun fmt args => rfl⟩
  · exact ⟨{ d with hex := 2, sign := false }, [], fun fmt args => rfl⟩
  · exact ⟨{ d with hex := 1, sign := false }, [], fun fmt args => rfl⟩
  · exact ⟨{ d with slen := 0 }, [.i64 0], fun fmt args => rfl⟩

/-- Behind the modifiers there is a conversion, and there are arguments for the modifiers. -/
theorem modifiers_of_mem {fmt : Bytes} (h0 : 0 ∈ fmt) (d : Directive) :
    ∃ d' conv fmt' pre, (∀ args, modifiers d fmt (pre ++ args) = some (d', conv :: fmt', args)) ∧
      0 ∈ conv :: fmt' ∧ fmt'.length < fmt.length := by
  induction fmt generalizing d with
  | nil => cases h0
  | cons b fmt ih =>
    have hrest : b ≠ 0 → 0 ∈ fmt := fun hb => (List.mem_cons.mp h0).resolve_left (Ne.symm hb)
    by_cases hover : b = ch 'u' ∨ b = ch 'X' ∨ b = ch 'x' ∨ b = ch '*'
    · have hb : b ≠ 0 := by
        rcases hover with rfl | rfl | rfl | rfl <;> decide
      obtain ⟨d₁, pre₁, hstep⟩ := modifiers_over hover d
      obtain ⟨d', conv, fmt', pre, hmod, hmem, hlen⟩ := ih (hrest hb) d₁
      refine ⟨d', conv, fmt', pre₁ ++ pre, fun args => ?_, hmem, Nat.lt_succ_of_lt hlen⟩
      rw [List.append_assoc, hstep, hmod]
    simp only [not_or] at hover
    obtain ⟨hu, hX, hx, hstar⟩ := hover
    by_cases hdot : b = ch '.'
    · have hb : b ≠ 0 := by
        rw [hdot]
        decide
      obtain ⟨m, fmt', hread, hmem, hlen⟩ := readNumber_of_mem (hrest hb) d.fracWidth
      obtain ⟨conv, fmt', rfl⟩ := List.exists_cons_of_ne_nil (List.ne_nil_of_mem hmem)
      refine ⟨{ d with fracWidth := m }, conv, fmt', [], fun args => ?_, hmem, ?_⟩
      · unfold modifiers
        rw [if_neg hu, if_neg hX, if_neg hx, if_pos hdot, hread]
        rfl
      · rw [List.length_cons] at hlen ⊢
        omega
    · refine ⟨d, b, fmt, [], fun args => ?_, h0, Nat.lt_succ_self _⟩
      unfold modifiers
      rw [if_neg hu, if_neg hX, if_neg hx, if_neg hdot, if_neg hstar]
      rfl

theorem parseDirective_of_mem {fmt : Bytes} (h0 : 0 ∈ fmt) :
    ∃ d conv fmt' pre, (∀ args, parseDirective fmt (pre ++ args) = some (d, conv :: fmt', args)) ∧
      0 ∈ conv :: fmt' ∧ fmt'.length < fmt.length := by
  obtain ⟨b, rest, rfl⟩ := List.exists_cons_of_ne_nil (List.ne_nil_of_mem h0)
  obtain ⟨width, fmt₁, hread, hmem₁, hlen₁⟩ := readNumber_of_mem h0 0
  obtain ⟨d, conv, fmt', pre, hmod, hmem, hlen⟩ := modifiers_of_mem hmem₁
    { zero := if b = ch '0' then ch '0' else ch ' '
      width := width
      sign := true
      hex := 0
      fracWidth := 0
      slen := noLen }
  refine ⟨d, conv, fmt', pre, fun args => ?_, hmem, Nat.lt_of_lt_of_le hlen hlen₁⟩
  simp only [parseDirective, List.head?_cons, Option.bind_some, hread, hmod]

theorem Output.readable_of_num {lead : Option UInt8} {ui64 : BitVec 64} {zero : UInt8}
    {hex width : Nat} : Output.Readable ⟨lead, [.num ui64 zero hex width]⟩ := by
  intro p hp
  obtain rfl := List.mem_singleton.mp hp
  trivial

theorem arg64_exists (d : Directive) (sign : Bool) :
    ∃ o : Output, o.Readable ∧ ∀ args, d.arg64 sign (.i64 0 :: args) = some (o, args) := by
  cases sign with
  | true => exact ⟨d.signed 0, d.signed_readable 0, fun args => rfl⟩
  | false => exact ⟨d.unsigned 0, Output.readable_of_num, fun args => rfl⟩

theorem arg32_exists (d : Directive) (sign : Bool) :
    ∃ o : Output, o.Readable ∧ ∀ args, d.arg32 sign (.i32 0 :: args) = some (o, args) := by
  cases sign with
  | true => exact ⟨d.signed (BitVec.signExtend 64 0#32), d.signed_readable _, fun args => rfl⟩
  | false => exact ⟨d.unsigned (BitVec.setWidth 64 0#32), Output.readable_of_num, fun args => rfl⟩

/-- There is an argument for every conversion, which can be read. -/
theorem convert_exists (d : Directive) (conv : UInt8) :
    ∃ o pre, o.Readable ∧ ∀ args, convert d conv (pre ++ args) = some (o, args) := by
  have hnothing : ∀ b, Output.Readable ⟨some b, []⟩ := fun b p hp => nomatch hp
  by_cases hs : conv = ch 's'
  · subst hs
    -- a string that is long enough for the length that was given
    refine ⟨_, [.str (List.replicate d.slen 1 ++ [0])], ?_, fun args => rfl⟩
    intro p hp
    obtain rfl := List.mem_singleton.mp hp
    split
    · exact List.mem_append_right _ (List.mem_singleton_self 0)
    · simp only [Piece.Readable, List.length_append, List.length_replicate]
      omega
  by_cases hO : conv = ch 'O' ∨ conv = ch 'T'
  · obtain ⟨o, hread, hout⟩ := arg64_exists d true
    rcases hO with rfl | rfl <;> exact ⟨o, [.i64 0], hread, hout⟩
  by_cases hP : conv = ch 'P'
  · obtain ⟨o, hread, hout⟩ := arg32_exists d true
    subst hP
    exact ⟨o, [.i32 0], hread, hout⟩
  by_cases hM : conv = ch 'M'
  · subst hM
    exact ⟨d.unsigned 0, [.i64 0], Output.readable_of_num, fun args => rfl⟩
  by_cases hz : conv = ch 'z' ∨ conv = ch 'l' ∨ conv = ch 'L'
  · obtain ⟨o, hread, hout⟩ := arg64_exists d d.sign
    rcases hz with rfl | rfl | rfl <;> exact ⟨o, [.i64 0], hread, hout⟩
  by_cases hi : conv = ch 'i' ∨ conv = ch 'd' ∨ conv = ch 'D'
  · obtain ⟨o, hread, hout⟩ := arg32_exists d d.sign
    rcases hi with rfl | rfl | rfl <;> exact ⟨o, [.i32 0], hread, hout⟩
  by_cases hf : conv = ch 'f'
  · subst hf
    refine ⟨_, [.dbl ⟨false, fun _ => 0, fun _ => 0⟩], ?_, fun args => rfl⟩
    intro p hp
    rcases List.mem_cons.mp hp with rfl | hp
    · trivial
    split at hp
    · cases hp
    · simp only [List.mem_cons, List.not_mem_nil, or_false] at hp
      rcases hp with rfl | rfl <;> trivial
  by_cases hp : conv = ch 'p'
  · obtain ⟨o, hread, hout⟩ :=
      arg64_exists { d with hex := 2, zero := ch '0', width := 16 } false
    subst hp
    exact ⟨o, [.i64 0], hread, hout⟩
  by_cases hc : conv = ch 'c'
  · subst hc
    exact ⟨_, [.i32 0], hnothing _, fun args => rfl⟩
  by_cases hZ : conv = ch 'Z'
  · subst hZ
    exact ⟨_, [], hnothing _, fun args => rfl⟩
  by_cases hN : conv = ch 'N'
  · subst hN
    exact ⟨_, [], hnothing _, fun args => rfl⟩
  by_cases hpercent : conv = ch '%'
  · subst hpercent
    exact ⟨_, [], hnothing _, fun args => rfl⟩
  · refine ⟨⟨some conv, []⟩, [], hnothing conv, fun args => ?_⟩
    unfold convert
    rw [if_neg hs, if_neg hO, if_neg hP, if_neg hM, if_neg hz, if_neg hi, if_neg hf, if_neg hp,
      if_neg hc, if_neg hZ, if_neg hN, if_neg hpercent]
    rfl

/-- A format has whole directives only, or there are arguments with which the formatter comes to one
that is cut short. -/
theorem wholeDirectives_or_cutAt (fmt : Bytes) (h0 : 0 ∈ fmt) :
    WholeDirectives fmt ∨ ∃ args n, CutAt fmt args n := by
  induction hlen : fmt.length using Nat.strongRecOn generalizing fmt with
  | ind len ih =>
    cases fmt with
    | nil => cases h0
    | cons b fmt =>
      rw [List.length_cons] at hlen
      by_cases hnul : b = 0
      · rw [hnul]
        exact .inl (.nul fmt)
      have hmem : 0 ∈ fmt := (List.mem_cons.mp h0).resolve_left (Ne.symm hnul)
      by_cases hpercent : b = ch '%'
      · subst hpercent
        obtain ⟨d, conv, fmt', pre, hparse, hmem', hshort⟩ := parseDirective_of_mem hmem
        by_cases hconv : conv = 0
        · subst hconv
          exact .inr ⟨pre ++ [], 0, .here (hparse [])⟩
        have h0' : 0 ∈ fmt' := (List.mem_cons.mp hmem').resolve_left (Ne.symm hconv)
        rcases ih fmt'.length (by omega) fmt' h0' rfl with hwhole | ⟨args, n, hcut⟩
        · exact .inl (.directive (parseDirective_skip (hparse [])) hconv hwhole)
        · obtain ⟨o, pre', hread, hout⟩ := convert_exists d conv
          exact .inr ⟨pre ++ (pre' ++ args), o.text.length + n,
            .directive (hparse _) hconv (hout args) hread hcut⟩
      · rcases ih fmt.length (by omega) fmt hmem rfl with hwhole | ⟨args, n, hcut⟩
        · exact .inl (.char hnul hpercent hwhole)
        · exact .inr ⟨args, n + 1, .char hnul hpercent hcut⟩

/-- **Inside the format.** For every format string, the formatter reads nothing behind its NUL and
does not copy the NUL, whatever the arguments and the room, if and only if no directive of it is cut
short: between every `%` that begins one and the end there is a conversion behind the digits, the
modifiers and the precision. -/
theorem format_inside_iff (s : CStr) :
    (∀ room args, FormatInside room (s.1 ++ [0]) args) ↔ WholeDirectives (s.1 ++ [0]) := by
  constructor
  · intro hinside
    apply (wholeDirectives_or_cutAt (s.1 ++ [0]) (by simp)).resolve_right
    rintro ⟨args, n, hcut⟩
    obtain ⟨t, hreach, hcopy⟩ := hcut.reaches (n + 1) (Nat.lt_succ_self n)
    exact (hinside (n + 1) args t hreach).2 hcopy
  · intro hwhole room args t hreach
    have hthere : WholeDirectives t.fmt := hwhole.reaches hreach
    exact hthere.inside

/-- `"100%"`. -/
def percentFormat : Bytes := [ch '1', ch '0', ch '0', ch '%', 0]

/-- Its NUL is copied, and the next test reads behind it. -/
theorem format_inside_percent :
    (∃ t, FmtTest.Reaches ⟨16, percentFormat, []⟩ t ∧ t.CopiesNul) ∧
    (∃ t, FmtTest.Reaches ⟨16, percentFormat, []⟩ t ∧ ¬ t.ReadsInside) ∧
    ¬ ∀ room args, FormatInside room percentFormat args := by
  have hgo : ∀ {room b fmt args}, b ≠ 0 → room ≠ 0 → FmtTest.GoesOn ⟨room, b :: fmt, args⟩ :=
    fun hb hroom => ⟨fun heq => hb (Option.some.inj heq), hroom⟩
  have hpercent : FmtTest.Reaches ⟨16, percentFormat, []⟩ ⟨13, [ch '%', 0], []⟩ :=
    .turn (hgo (by decide) (by decide)) rfl
      (.turn (hgo (by decide) (by decide)) rfl (.turn (hgo (by decide) (by decide)) rfl (.here _)))
  have hbehind : FmtTest.Reaches ⟨16, percentFormat, []⟩ ⟨12, [], []⟩ :=
    .turn (hgo (by decide) (by decide)) rfl (.turn (hgo (by decide) (by decide)) rfl
      (.turn (hgo (by decide) (by decide)) rfl (.turn (hgo (by decide) (by decide)) rfl (.here _))))
  have hcopy : FmtTest.CopiesNul ⟨13, [ch '%', 0], []⟩ :=
    ⟨hgo (by decide) (by decide), rfl, plainDirective, [], [], rfl⟩
  refine ⟨⟨_, hpercent, hcopy⟩, ⟨_, hbehind, fun hinside => hinside.1 rfl⟩, fun hall => ?_⟩
  exact (hall 16 [] _ hpercent).2 hcopy

end Mgx
