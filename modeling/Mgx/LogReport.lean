import Mgx.Log

/-
  When a line can be logged.

  A call of `mgx_log` formats its line. For `MGX_LOG_STDERR` and in debug mode it
  then has the line formatted once more, as a format without arguments. The first
  goes wrong where a `%s` has no string to read, the second where the line itself
  has a directive that takes an argument.

  Correspondence (C++ ↔ Lean):
    a call of `mgx_log`, with what it finds                ↔ `LogCtx.mgxLog`
    the conversions with a `va_arg` in `mgx_vslprintf`     ↔ `takesArg`
    a format that ends with its only directive, a `%s`     ↔ `strFormat`

  The call is undefined exactly where its result is `none`.

  What is proved: `LogCtx.mgxLog_str_isSome_iff`, when a line with a string at its
  end can be logged. A line without a `%` always can, `LogCtx.mgxLog_plain`: the
  modules that follow leave out the lines of fixed text and numbers.
-/
namespace Mgx
open Bounded

/-! ## A format without arguments -/

/-- The conversions that take an argument. -/
def argConversions : Bytes := ascii "sOTPMzlLidDfpc"

def takesArg (conv : UInt8) : Bool := argConversions.contains conv

/-- What one of the others stores. -/
def plainByte (conv : UInt8) : UInt8 :=
  if conv = ch 'Z' then 0 else if conv = ch 'N' then 10 else conv

/-- As far as there is room, and up to its NUL, the format has no directive that takes an argument. A
directive cut short by the NUL stores it, and the format goes on behind. -/
inductive TakesNoArg : Nat → Bytes → Prop
  | nul (room : Nat) (mem : Bytes) : TakesNoArg room (0 :: mem)
  | full (b : UInt8) (fmt : Bytes) : TakesNoArg 0 (b :: fmt)
  | char {room : Nat} {b : UInt8} {fmt : Bytes} (hnul : b ≠ 0) (hchar : b ≠ ch '%')
      (h : TakesNoArg room fmt) : TakesNoArg (room + 1) (b :: fmt)
  | directive {room : Nat} {fmt fmt' : Bytes} {d : Directive} {conv : UInt8}
      (hparse : parseDirective fmt [] = some (d, conv :: fmt', []))
      (hconv : takesArg conv = false) (h : TakesNoArg room fmt') :
      TakesNoArg (room + 1) (ch '%' :: fmt)

/-- Without arguments a conversion stores one byte, or it is undefined. -/
theorem convert_nil (d : Directive) (conv : UInt8) : convert d conv [] =
    if takesArg conv = true then none else some (⟨some (plainByte conv), []⟩, []) := by
  have harg : takesArg conv = true ↔ conv = ch 's' ∨ (conv = ch 'O' ∨ conv = ch 'T') ∨
      conv = ch 'P' ∨ conv = ch 'M' ∨ (conv = ch 'z' ∨ conv = ch 'l' ∨ conv = ch 'L') ∨
      (conv = ch 'i' ∨ conv = ch 'd' ∨ conv = ch 'D') ∨ conv = ch 'f' ∨ conv = ch 'p' ∨
      conv = ch 'c' := by
    have hlist : argConversions = [ch 's', ch 'O', ch 'T', ch 'P', ch 'M', ch 'z', ch 'l', ch 'L',
      ch 'i', ch 'd', ch 'D', ch 'f', ch 'p', ch 'c'] := by decide
    rw [takesArg, hlist]
    simp [or_assoc]
  unfold convert
  by_cases htakes : takesArg conv = true
  · rw [if_pos htakes]
    rcases harg.mp htakes with rfl | (rfl | rfl) | rfl | rfl | (rfl | rfl | rfl) |
      (rfl | rfl | rfl) | rfl | rfl | rfl <;> rfl
  · rw [if_neg htakes]
    rw [harg] at htakes
    simp only [not_or] at htakes
    obtain ⟨hs, hO, hP, hM, hz, hi, hf, hp, hc⟩ := htakes
    have hz' : ¬ (conv = ch 'z' ∨ conv = ch 'l' ∨ conv = ch 'L') := by simp [hz]
    have hi' : ¬ (conv = ch 'i' ∨ conv = ch 'd' ∨ conv = ch 'D') := by simp [hi]
    rw [if_neg hs, if_neg (not_or.mpr hO), if_neg hP, if_neg hM, if_neg hz', if_neg hi', if_neg hf,
      if_neg hp, if_neg hc]
    unfold plainByte
    split
    · rfl
    split
    · rfl
    split
    next hpercent => rw [hpercent]
    next => rfl

/-- Behind a directive there are still no arguments. -/
theorem modifiers_nil {d d' : Directive} {fmt fmt' : Bytes} {args : List VaArg}
    (h : modifiers d fmt [] = some (d', fmt', args)) : args = [] := by
  induction fmt generalizing d with
  | nil => cases h
  | cons b fmt ih =>
    unfold modifiers at h
    split at h
    · exact ih h
    split at h
    · exact ih h
    split at h
    · exact ih h
    split at h
    · obtain ⟨p, -, heq⟩ := Option.map_eq_some_iff.mp h
      cases heq
      rfl
    split at h
    · cases h
    · cases h
      rfl

theorem parseDirective_nil {d : Directive} {fmt fmt' : Bytes} {args : List VaArg}
    (h : parseDirective fmt [] = some (d, fmt', args)) : args = [] := by
  obtain ⟨b, -, h⟩ := Option.bind_eq_some_iff.mp h
  obtain ⟨⟨width, rest⟩, -, h⟩ := Option.bind_eq_some_iff.mp h
  exact modifiers_nil h

theorem takesNoArg_percent_iff {room : Nat} {fmt : Bytes} :
    TakesNoArg (room + 1) (ch '%' :: fmt) ↔ ∃ d conv fmt',
      parseDirective fmt [] = some (d, conv :: fmt', []) ∧ takesArg conv = false ∧
        TakesNoArg room fmt' := by
  constructor
  · intro h
    cases h with
    | char _ hne _ => exact absurd rfl hne
    | directive hparse hconv h => exact ⟨_, _, _, hparse, hconv, h⟩
  · intro ⟨d, conv, fmt', hparse, hconv, h⟩
    exact .directive hparse hconv h

/-- A directive, without arguments: it stores one byte. -/
theorem vslprintfLoop_percent_nil (turns room : Nat) (fmt : Bytes) :
    (vslprintfLoop (turns + 1) (room + 1) (ch '%' :: fmt) []).isSome ↔ ∃ d conv fmt',
      parseDirective fmt [] = some (d, conv :: fmt', []) ∧ takesArg conv = false ∧
        (vslprintfLoop turns room fmt' []).isSome := by
  have hgoes : ¬ (ch '%' = 0 ∨ room + 1 = 0) := by
    rw [not_or]
    exact ⟨by decide, Nat.succ_ne_zero room⟩
  rw [vslprintfLoop, if_neg hgoes, if_pos rfl]
  cases hparse : parseDirective fmt [] with
  | none => simp
  | some p =>
    obtain ⟨d, fmt', args⟩ := p
    obtain rfl := parseDirective_nil hparse
    cases fmt' with
    | nil => simp
    | cons conv fmt' =>
      have hone : Output.write ⟨some (plainByte conv), []⟩ (room + 1) = some [plainByte conv] := by
        simp [Output.write, andThen, one, concat, copy]
      cases hconv : takesArg conv with
      | true => simp [convert_nil, hconv]
      | false => simp [convert_nil, hconv, hone]

/-- The loop, without arguments. -/
theorem vslprintfLoop_nil_isSome_iff (turns : Nat) : ∀ {room : Nat} {fmt : Bytes},
    fmt.length < turns → ((vslprintfLoop turns room fmt []).isSome ↔ TakesNoArg room fmt) := by
  induction turns with
  | zero => exact fun h => absurd h (Nat.not_lt_zero _)
  | succ turns ih =>
    intro room fmt hturns
    cases fmt with
    | nil => exact iff_of_false Bool.noConfusion nofun
    | cons b fmt =>
      have hshort : fmt.length < turns := Nat.lt_of_succ_lt_succ hturns
      by_cases hnul : b = 0
      · rw [vslprintfLoop, if_pos (.inl hnul), hnul]
        exact iff_of_true rfl (.nul room fmt)
      cases room with
      | zero =>
        rw [vslprintfLoop, if_pos (.inr rfl)]
        exact iff_of_true rfl (.full b fmt)
      | succ room =>
        by_cases hchar : b = ch '%'
        · rw [hchar, vslprintfLoop_percent_nil, takesNoArg_percent_iff]
          apply exists_congr; intro d
          apply exists_congr; intro conv
          apply exists_congr; intro fmt'
          apply and_congr_right; intro hparse
          apply and_congr_right; intro _
          apply ih
          have hlen := parseDirective_length hparse
          rw [List.length_cons] at hlen
          omega
        · rw [vslprintfLoop, if_neg (not_or.mpr ⟨hnul, Nat.succ_ne_zero room⟩), if_neg hchar,
            Nat.add_sub_cancel, Option.isSome_map, ih hshort]
          constructor
          · exact .char hnul hchar
          · intro h
            cases h with
            | nul => exact absurd rfl hnul
            | char _ _ h => exact h
            | directive => exact absurd rfl hchar

/-- Formatting without arguments is defined exactly when none is taken. -/
theorem mgxVslprintf_nil_isSome_iff (room : Nat) (fmt : Bytes) :
    (mgxVslprintf room fmt []).isSome ↔ TakesNoArg room fmt :=
  vslprintfLoop_nil_isSome_iff _ (Nat.lt_succ_self _)

/-- A string without `%` as far as there is room. -/
theorem TakesNoArg.of_literal {room : Nat} {c : Bytes} (hnul : 0 ∉ c) (h : ch '%' ∉ c.take room)
    (mem : Bytes) : TakesNoArg room (c ++ 0 :: mem) := by
  rw [← mgxVslprintf_nil_isSome_iff, mgxVslprintf_literal hnul mem [] room h]
  rfl

/-- What is copied is passed over. -/
theorem takesNoArg_append_iff {l : Bytes} (hnul : 0 ∉ l) (hpercent : ch '%' ∉ l) (rest : Bytes) :
    ∀ {room : Nat}, l.length ≤ room →
      (TakesNoArg room (l ++ rest) ↔ TakesNoArg (room - l.length) rest) := by
  induction l with
  | nil => exact fun _ => Iff.rfl
  | cons b l ih =>
    rw [List.mem_cons, not_or] at hnul hpercent
    intro room hroom
    obtain ⟨room, rfl⟩ := Nat.exists_eq_add_one_of_ne_zero (Nat.ne_zero_of_lt hroom)
    rw [List.length_cons, Nat.add_sub_add_right,
      ← ih hnul.2 hpercent.2 (Nat.le_of_succ_le_succ hroom)]
    constructor
    · intro h
      cases h with
      | nul => exact absurd rfl hnul.1
      | char _ _ h => exact h
      | directive => exact absurd rfl hpercent.1
    · exact .char (Ne.symm hnul.1) (Ne.symm hpercent.1)

/-- A `%s` takes an argument. -/
theorem not_takesNoArg_str {l : Bytes} (hnul : 0 ∉ l) (hpercent : ch '%' ∉ l) (rest : Bytes)
    {room : Nat} (hroom : l.length < room) : ¬ TakesNoArg room (l ++ ch '%' :: ch 's' :: rest) := by
  have hparse : parseDirective (ch 's' :: rest) [] = some (plainDirective, ch 's' :: rest, []) := rfl
  obtain ⟨k, hk⟩ := Nat.exists_eq_add_one_of_ne_zero (Nat.sub_ne_zero_of_lt hroom)
  rw [takesNoArg_append_iff hnul hpercent _ hroom.le, hk, takesNoArg_percent_iff]
  intro ⟨d, conv, fmt', hparse', hconv, _⟩
  rw [hparse] at hparse'
  cases hparse'
  exact absurd hconv (by decide)

/-! ## A string at the end of a format -/

/-- The format that ends with a `%s`, and is `greeting` in front of it. -/
def strFormat (greeting : Bytes) : Bytes := greeting ++ [ch '%', ch 's', 0]

/-- The copy stays inside the memory when it comes to a NUL in it, or to the end of the room. -/
theorem copyString_isSome_iff (mem : Bytes) (room : Nat) :
    (copyString mem room).isSome ↔ 0 ∈ mem ∨ room < mem.length := by
  induction mem generalizing room with
  | nil => simp [copyString]
  | cons b p ih =>
    unfold copyString
    by_cases hb : b = 0
    · simp [hb]
    · rw [if_neg hb]
      cases room with
      | zero => simp
      | succ room =>
        have hmem : 0 ∈ b :: p ↔ 0 ∈ p := by
          rw [List.mem_cons, or_iff_right (Ne.symm hb)]
        rw [hmem, List.length_cons, Nat.succ_lt_succ_iff, ← ih room]
        show ((copyString p room).map (b :: ·)).isSome ↔ _
        rw [Option.isSome_map]

/-- What it copies. -/
theorem copyString_eq {mem out : Bytes} {room : Nat} (h : copyString mem room = some out) :
    out = (mem.takeWhile (· ≠ 0)).take room := by
  induction mem generalizing room out with
  | nil => cases h
  | cons b p ih =>
    unfold copyString at h
    by_cases hb : b = 0
    · rw [if_pos hb] at h
      obtain rfl := Option.some.inj h
      rw [List.takeWhile_cons, if_neg (by simp [hb]), List.take_nil]
    · rw [if_neg hb] at h
      rw [List.takeWhile_cons, if_pos (by simp [hb])]
      cases room with
      | zero =>
        obtain rfl := Option.some.inj h
        rfl
      | succ room =>
        obtain ⟨rest, hrest, rfl⟩ := Option.map_eq_some_iff.mp h
        rw [List.take_succ_cons, ih hrest]

/-- Behind the greeting the string is copied, and the format ends. -/
theorem mgxVslprintf_strFormat {greeting : Bytes} (hnul : 0 ∉ greeting)
    (hpercent : ch '%' ∉ greeting) (mem : Bytes) {room : Nat} (hroom : greeting.length < room) :
    mgxVslprintf room (strFormat greeting) [.str mem] =
      (copyString mem (room - greeting.length)).map fun out => ⟨greeting ++ out, 1⟩ := by
  have hlen : (strFormat greeting).length = greeting.length + 3 := List.length_append
  have hturns : (strFormat greeting).length + 1 - greeting.length = 2 + 2 := by omega
  have hgoes : ¬ (ch '%' = 0 ∨ room - greeting.length = 0) := by
    rw [not_or]
    exact ⟨by decide, by omega⟩
  have hparse : parseDirective [ch 's', 0] [.str mem] =
      some (plainDirective, [ch 's', 0], [.str mem]) := rfl
  have hconvert : convert plainDirective (ch 's') [.str mem] = some (⟨none, [.str mem]⟩, []) := rfl
  have hwrite : (⟨none, [.str mem]⟩ : Output).write (room - greeting.length) =
      copyString mem (room - greeting.length) := by
    show andThen (copyString mem) (copy []) _ = _
    unfold andThen copy
    cases copyString mem (room - greeting.length) with
    | none => rfl
    | some out => simp
  rw [mgxVslprintf, strFormat, vslprintfLoop_literal hnul hpercent _ _ _ _ (by
    rw [List.length_append]
    omega) hroom.le]
  show Option.map _ (vslprintfLoop ((strFormat greeting).length + 1 - _) _ _ _) = _
  rw [hturns, vslprintfLoop, if_neg hgoes, if_pos rfl, hparse, Option.bind_some]
  simp only [hconvert, Option.bind_some, hwrite]
  cases copyString mem (room - greeting.length) with
  | none => rfl
  | some out =>
    rw [Option.bind_some, vslprintfLoop, if_pos (.inl rfl)]
    simp [Printed.after]

/-! ## The head of a line -/

theorem digitLoop_length {base hex : Nat} : ∀ {k v : Nat} {acc p : Bytes},
    digitLoop base hex k v acc = some p → p.length ≤ k + acc.length := by
  intro k
  induction k with
  | zero =>
    intro v acc p h
    cases h
  | succ k ih =>
    intro v acc p h
    rw [digitLoop] at h
    split at h
    · obtain rfl := Option.some.inj h
      rw [List.length_cons]
      omega
    · have hrest := ih h
      rw [List.length_cons] at hrest
      omega

/-- A number has no more digits than `temp` has places. -/
theorem tempDigits_length {ui64 : BitVec 64} {hex : Nat} {p : Bytes}
    (h : tempDigits ui64 hex = some p) : p.length ≤ mgxInt64Len := by
  unfold tempDigits at h
  split at h
  · split at h
    · exact digitLoop_length h
    · exact digitLoop_length h
  · exact digitLoop_length h

theorem signed_text_length (i64 : BitVec 64) :
    (plainDirective.signed i64).text.length ≤ mgxInt64Len + 1 := by
  have hnum : ∀ v : BitVec 64, (Piece.num v (ch ' ') 0 0).text.length ≤ mgxInt64Len := by
    intro v
    obtain ⟨p, hp⟩ := tempDigits_isSome v 0
    rw [Piece.text, hp, Option.getD_some, Nat.zero_sub, List.replicate_zero, List.nil_append]
    exact tempDigits_length hp
  unfold Directive.signed
  split
  · have hlen := hnum (-i64)
    simpa [Output.text, plainDirective] using hlen
  · have hlen := Nat.le_succ_of_le (hnum i64)
    simpa [Output.text, plainDirective] using hlen

theorem logTag_length {level : Int} {tag : Bytes} (h : logTag level = some tag) :
    tag.length ≤ 6 := by
  have hall : ∀ tag ∈ logTags, tag.length ≤ 6 := by decide
  obtain ⟨-, h⟩ := Option.ite_none_right_eq_some.mp h
  exact hall tag (List.mem_of_getElem? h)

/-- The line up to its text is short. -/
theorem logHead_length {tag : Bytes} (h : tag.length ≤ 6) (pid : BitVec 32) :
    (logHead tag pid).length ≤ 33 := by
  have hnum := signed_text_length (pid.signExtend 64)
  unfold mgxInt64Len at hnum
  simp only [logHead, List.length_cons, List.length_append, List.length_nil]
  omega

/-- A line is what its text makes of it. -/
theorem logLine_eq_bind {time tag : Bytes} {pid : BitVec 32} (htime : time.length < 64)
    (hnul : 0 ∉ tag) (htag : tag.length ≤ 6) (fmt : Bytes) (args : List VaArg) :
    logLine time tag pid fmt args =
      (mgxVslprintf (mgxMaxErrStrSize - (time ++ logHead tag pid).length) fmt args).map fun r =>
        time ++ logHead tag pid ++ r.text := by
  have hhead := logHead_length htag pid
  have hsize : mgxMaxErrStrSize = 10240 := rfl
  obtain ⟨head, hprinted, htext⟩ := Option.map_eq_some_iff.mp
    ((logHead_formats hnul pid).prints (mgxMaxErrStrSize - time.length))
  rw [List.take_of_length_le (by omega)] at htext
  rw [logLine, hprinted, Option.bind_some, htext]

/-! ## A call of `mgx_log` -/

/-- `MGX_LOG_ERR`. -/
def logErr : Int := 4

/-- `MGX_LOG_NOTICE`. -/
def logNotice : Int := 6

/-- `MGX_LOG_DEBUG`. -/
def logDebug : Int := 8

/-- The entry of `log_tags` for `MGX_LOG_NOTICE`. -/
def noticeTag : Bytes := ascii "notice"

/-- The entry of `log_tags` for `MGX_LOG_DEBUG`. -/
def debugTag : Bytes := ascii "debug"

theorem logTag_notice : logTag logNotice = some noticeTag := by decide

theorem logTag_debug : logTag logDebug = some debugTag := by decide

/-- What a call finds: `g_mgx_log`, the time as `get_cur_time_string` writes it, the process id, what
`write` returns, and the text of `errno`. -/
structure LogCtx where
  log : MgxLog
  time : Bytes
  pid : BitVec 32
  write : Bytes → Int
  errStr : Bytes
  time_short : time.length < 64
  time_plain : 0 ∉ time ∧ ch '%' ∉ time

def LogCtx.mgxLog (x : LogCtx) (level : Int) (fmt : Bytes) (args : List VaArg) : Option LogOut :=
  Mgx.mgxLog x.log level x.time x.pid fmt args x.write x.errStr

/-- What of a line with this text goes to the log, without its end. -/
def LogCtx.line (x : LogCtx) (tag text : Bytes) : Bytes := loggedLine x.time tag x.pid text

/-- What is left of a line for the string behind the greeting. -/
def LogCtx.strRoom (x : LogCtx) (tag greeting : Bytes) : Nat :=
  mgxMaxErrStrSize - (x.time ++ logHead tag x.pid).length - greeting.length

/-- The line goes to stderr as well. -/
def LogCtx.Reports (x : LogCtx) (level : Int) (line : Bytes) : Prop :=
  (level = 0 ∨ x.log.debugMode = true) ∧ x.write (line ++ [lf]) = (line ++ [lf]).length

/-- Where the line goes to stderr as well, it takes no argument there. -/
def LogCtx.TakesNone (x : LogCtx) (level : Int) (tag text : Bytes) : Prop :=
  x.Reports level (x.line tag text) → TakesNoArg 10235 (lineMem (x.line tag text))

namespace LogCtx

variable {x : LogCtx} {level : Int} {tag fmt text : Bytes} {args : List VaArg}

/-- What is logged without being formatted. -/
theorem mgxLog_of_lt (h : x.log.logLevel < level) (fmt : Bytes) (args : List VaArg) :
    x.mgxLog level fmt args = some ⟨none, [], false⟩ := if_pos h

/-- The report of a failed `write` is always formatted. -/
theorem writeError_isSome (errStr : Bytes) :
    (mgxLogStderr (ascii "write log error: %s" ++ [0]) [.str (errStr ++ [0])]).isSome := by
  have hformat : ascii "write log error: %s" ++ [0] = strFormat (ascii "write log error: ") := by
    decide
  have hgreeting : (ascii "write log error: ").length < mgxMaxErrStrSize - stdErrTag.length := by
    decide
  rw [mgxLogStderr, hformat, Option.isSome_map,
    mgxVslprintf_strFormat (by decide) (by decide) _ hgreeting, Option.isSome_map,
    copyString_isSome_iff]
  exact .inl (List.mem_append_right _ (List.mem_singleton_self 0))

/-- A line that has been formatted can be logged exactly when it takes no argument on stderr. -/
theorem mgxLog_isSome_of_logLine (hlevel : level ≤ x.log.logLevel) (htag : logTag level = some tag)
    (hline : logLine x.time tag x.pid fmt args =
      some ((x.time ++ logHead tag x.pid ++ text).take mgxMaxErrStrSize)) :
    (x.mgxLog level fmt args).isSome ↔ x.TakesNone level tag text := by
  have hclamp : clampLine ((x.time ++ logHead tag x.pid ++ text).take mgxMaxErrStrSize) =
      x.line tag text := by
    rw [clampLine_eq, List.take_take]
    rfl
  have hstderr : stdErrTag.length = 5 := by decide
  unfold LogCtx.mgxLog Mgx.mgxLog TakesNone Reports
  rw [if_neg (Int.not_lt.mpr hlevel), htag, Option.bind_some, hline, Option.bind_some]
  simp only [hclamp]
  by_cases hwrite : x.write (x.line tag text ++ [lf]) = (x.line tag text ++ [lf]).length
  · rw [if_neg (not_not_intro hwrite)]
    by_cases hreport : level = 0 ∨ x.log.debugMode = true
    · rw [if_pos hreport, Option.isSome_map, mgxLogStderr, Option.isSome_map,
        mgxVslprintf_nil_isSome_iff, hstderr]
      exact ⟨fun h _ => h, fun h => h ⟨hreport, hwrite⟩⟩
    · rw [if_neg hreport]
      exact iff_of_true rfl fun h => absurd h.1 hreport
  · rw [if_pos hwrite, Option.isSome_map]
    exact iff_of_true (writeError_isSome _) fun h => absurd h.2 hwrite

/-- A call whose arguments match its format. -/
theorem mgxLog_isSome_iff (htag : logTag level = some tag) (htext : Formats fmt args text) :
    (x.mgxLog level fmt args).isSome ↔ x.log.logLevel < level ∨ x.TakesNone level tag text := by
  by_cases hlevel : x.log.logLevel < level
  · rw [mgxLog_of_lt hlevel]
    exact iff_of_true rfl (.inl hlevel)
  · rw [or_iff_right hlevel]
    exact mgxLog_isSome_of_logLine (Int.not_lt.mp hlevel) htag
      (Mgx.logLine_eq x.time_short (logTag_noNul htag) htext)

/-- The head of a line leaves room for a text. -/
theorem head_length (htag : logTag level = some tag) (x : LogCtx) :
    (x.time ++ logHead tag x.pid).length ≤ 96 := by
  have htime := x.time_short
  have hhead := logHead_length (logTag_length htag) x.pid
  rw [List.length_append]
  omega

/-- The line of a call, from its text. -/
theorem logLine_eq (htag : logTag level = some tag) (x : LogCtx) (fmt : Bytes)
    (args : List VaArg) : logLine x.time tag x.pid fmt args =
      (mgxVslprintf (mgxMaxErrStrSize - (x.time ++ logHead tag x.pid).length) fmt args).map
        fun r => x.time ++ logHead tag x.pid ++ r.text :=
  logLine_eq_bind x.time_short (logTag_noNul htag) (logTag_length htag) fmt args

/-- Where the text cannot be formatted, the call is undefined. -/
theorem mgxLog_eq_none (hlevel : level ≤ x.log.logLevel) (htag : logTag level = some tag)
    (h : mgxVslprintf (mgxMaxErrStrSize - (x.time ++ logHead tag x.pid).length) fmt args = none) :
    x.mgxLog level fmt args = none := by
  unfold LogCtx.mgxLog Mgx.mgxLog
  rw [if_neg (Int.not_lt.mpr hlevel), htag, Option.bind_some, logLine_eq htag x, h, Option.map_none,
    Option.bind_none]

theorem take_append_of_le {a b : Bytes} {n : Nat} (h : a.length ≤ n) :
    (a ++ b).take n = a ++ b.take (n - a.length) := by
  rw [List.take_append, List.take_of_length_le h]

/-- A call whose last argument is the string of the only directive. -/
theorem mgxLog_str_isSome_iff (htag : logTag level = some tag) {greeting : Bytes}
    (hnul : 0 ∉ greeting) (hpercent : ch '%' ∉ greeting) (hshort : greeting.length ≤ 64)
    (mem : Bytes) :
    (x.mgxLog level (strFormat greeting) [.str mem]).isSome ↔ x.log.logLevel < level ∨
      ((0 ∈ mem ∨ x.strRoom tag greeting < mem.length) ∧
        x.TakesNone level tag (greeting ++ mem.takeWhile (· ≠ 0))) := by
  by_cases hlevel : x.log.logLevel < level
  · rw [mgxLog_of_lt hlevel]
    exact iff_of_true rfl (.inl hlevel)
  rw [or_iff_right hlevel]
  have hhead := head_length htag x
  have hsize : mgxMaxErrStrSize = 10240 := rfl
  have hroom : greeting.length < mgxMaxErrStrSize - (x.time ++ logHead tag x.pid).length := by omega
  have hprint := mgxVslprintf_strFormat hnul hpercent mem hroom
  rw [← copyString_isSome_iff]
  show _ ↔ (copyString mem (mgxMaxErrStrSize - (x.time ++ logHead tag x.pid).length -
    greeting.length)).isSome ∧ _
  cases hcopy : copyString mem (mgxMaxErrStrSize - (x.time ++ logHead tag x.pid).length -
    greeting.length) with
  | none =>
    -- the string is read past its end
    rw [hcopy, Option.map_none] at hprint
    rw [mgxLog_eq_none (Int.not_lt.mp hlevel) htag hprint]
    exact iff_of_false Bool.noConfusion fun h => Bool.noConfusion h.1
  | some out =>
    have hline := logLine_eq htag x (strFormat greeting) [.str mem]
    rw [hprint, hcopy, Option.map_some, Option.map_some] at hline
    have hfull : x.time ++ logHead tag x.pid ++ (greeting ++ out) =
        (x.time ++ logHead tag x.pid ++ (greeting ++ mem.takeWhile (· ≠ 0))).take
          mgxMaxErrStrSize := by
      rw [copyString_eq hcopy, take_append_of_le (by omega), take_append_of_le hroom.le]
    rw [mgxLog_isSome_of_logLine (Int.not_lt.mp hlevel) htag (hline.trans (congrArg some hfull))]
    exact (and_iff_right rfl).symm

/-! ## Lines without a directive of their own -/

/-- The loop stores digits. -/
theorem notMem_digitLoop {base hex : Nat} {c : UInt8} (hbase : 0 < base)
    (hc : ∀ d < base, c ≠ digitChar hex d) : ∀ {k v : Nat} {acc p : Bytes}, c ∉ acc →
      digitLoop base hex k v acc = some p → c ∉ p := by
  intro k
  induction k with
  | zero =>
    intro v acc p _ h
    cases h
  | succ k ih =>
    intro v acc p hacc h
    have hcons : c ∉ digitChar hex (v % base) :: acc := by
      rw [List.mem_cons, not_or]
      exact ⟨hc _ (Nat.mod_lt v hbase), hacc⟩
    rw [digitLoop] at h
    split at h
    · obtain rfl := Option.some.inj h
      exact hcons
    · exact ih hcons h

theorem percent_notMem_signed (i64 : BitVec 64) : ch '%' ∉ (plainDirective.signed i64).text := by
  have hdigit : ∀ d < 10, ch '%' ≠ digitChar 0 d := by decide
  have hnum : ∀ v : BitVec 64, ch '%' ∉ (Piece.num v (ch ' ') 0 0).text := by
    intro v
    obtain ⟨p, hp⟩ := tempDigits_isSome v 0
    rw [Piece.text, hp, Option.getD_some, Nat.zero_sub, List.replicate_zero, List.nil_append]
    rw [tempDigits, if_pos rfl] at hp
    split at hp
    · exact notMem_digitLoop (by decide) hdigit List.not_mem_nil hp
    · exact notMem_digitLoop (by decide) hdigit List.not_mem_nil hp
  unfold Directive.signed
  split
  · have hminus : ch '%' ≠ ch '-' := by decide
    simpa [Output.text, plainDirective, hminus] using hnum (-i64)
  · simpa [Output.text, plainDirective] using hnum i64

theorem percent_notMem_logHead {tag : Bytes} (h : logTag level = some tag) (pid : BitVec 32) :
    ch '%' ∉ logHead tag pid := by
  have hall : ∀ tag ∈ logTags, ch '%' ∉ tag := by decide
  have htag : ch '%' ∉ tag := by
    obtain ⟨-, h⟩ := Option.ite_none_right_eq_some.mp h
    exact hall tag (List.mem_of_getElem? h)
  have hnum := percent_notMem_signed (pid.signExtend 64)
  have hfixed : ch '%' ∉ [ch ' ', ch '[', ch ']', ch ':'] := by decide
  simp only [List.mem_cons, List.not_mem_nil, or_false, not_or] at hfixed
  simp [logHead, htag, hnum, hfixed]

/-- Where the text has no `%`, nothing is taken. -/
theorem takesNone_of_plain (htag : logTag level = some tag) (h : ch '%' ∉ text) :
    x.TakesNone level tag text := by
  intro _
  have hline : ch '%' ∉ x.line tag text := by
    intro hmem
    have hfull := List.mem_of_mem_take hmem
    rw [List.append_assoc, List.mem_append, List.mem_append] at hfull
    rcases hfull with htime | hhead | htext
    · exact x.time_plain.2 htime
    · exact percent_notMem_logHead htag x.pid hhead
    · exact h htext
  have hlen : (x.line tag text).length < mgxMaxErrStrSize := (take_clamped _).1
  obtain ⟨mem, hmem⟩ := lineMem_eq hlen
  rw [hmem]
  apply TakesNoArg.of_literal
  · exact fun hm => by simpa using List.mem_takeWhile_imp hm
  · exact fun hm => hline ((List.takeWhile_prefix _).subset (List.mem_of_mem_take hm))

/-- **Lines that can always be logged.** A call whose arguments match its format and whose text has no
`%` is defined, whatever it finds. -/
theorem mgxLog_plain (htag : logTag level = some tag) (htext : Formats fmt args text)
    (h : ch '%' ∉ text) : (x.mgxLog level fmt args).isSome :=
  (mgxLog_isSome_iff htag htext).mpr (.inr (takesNone_of_plain htag h))

end LogCtx

/-- A time. -/
def newYear : Bytes := ascii "2024-01-01 00:00:00"

theorem newYear_short : newYear.length < 64 := by decide

theorem newYear_plain : 0 ∉ newYear ∧ ch '%' ∉ newYear := by decide

/-- A context in which `write` writes all. -/
def MgxLog.ctx (g : MgxLog) : LogCtx where
  log := g
  time := newYear
  pid := 7
  write := writeAll
  errStr := []
  time_short := newYear_short
  time_plain := newYear_plain

/-- Nothing is logged but what goes to stderr in any case. -/
def quietLog : MgxLog := ⟨0, 3, false⟩

end Mgx
