import Mgx.HttpRequest
import Mgx.Printf

/-
  The log, and what of it reaches stderr.

  `mgx_log` formats a line, writes it to the log, and, for `MGX_LOG_STDERR` and in
  debug mode, hands the line to `mgx_log_stderr` as its format.

  Correspondence (C++ ↔ Lean), `app/mgx_log.cpp`:
    `mgx_log_stderr`                           ↔ `mgxLogStderr`
    `mgx_log`                                  ↔ `mgxLog`
      the formatting of the line               ↔ `logLine`
      the clamp of `p` and the `'\\n'`          ↔ `clampLine`
    the buffer after `*(--p) = '\\0'`           ↔ `lineMem`

  The time string, the process id, what `write` returns and the text of `errno` are
  arguments. `time_buf` has 64 bytes, so that its string is shorter.

  What is proved: `log_literal_iff`. What stderr gets is the tag and the line of the
  log if and only if the line, up to its first NUL and as far as the buffer reaches,
  has no `%`, and as far as it is emitted no NUL.
-/
namespace Mgx
open Bounded

/-- `MGX_MAX_ERR_STR_SIZE` and `MGX_MAX_LOG_STR_SIZE`. -/
def mgxMaxErrStrSize : Nat := 10240

/-- `STD_ERR_TAG`. -/
def stdErrTag : Bytes := ascii "mgx: "

def logTags : List Bytes :=
  [ascii "stderr", ascii "emerg", ascii "alert", ascii "crit", ascii "error", ascii "warn",
    ascii "notice", ascii "info", ascii "debug"]

/-- `log_tags[level]`; reading outside the table is undefined. -/
def logTag (level : Int) : Option Bytes := if 0 ≤ level then logTags[level.toNat]? else none

/-- `g_mgx_log`. -/
structure MgxLog where
  logLevel : Int
  fd : Int
  debugMode : Bool

/-- The line as it is written: `p` is moved back when it is at the end of the buffer, and `'\\n'`
goes there. -/
def clampLine (line : Bytes) : Bytes :=
  let p := if line.length ≥ mgxMaxErrStrSize - 1 then mgxMaxErrStrSize - 2 else line.length
  line.take p

/-- What `write` is given for stderr, and the directives its formatter took. -/
structure StderrLine where
  bytes : Bytes
  directives : Nat
  deriving DecidableEq, Repr

/-- `mgx_log_stderr`. -/
def mgxLogStderr (fmt : Bytes) (args : List VaArg) : Option StderrLine :=
  (mgxVslprintf (mgxMaxErrStrSize - stdErrTag.length) fmt args).map fun r =>
    ⟨clampLine (stdErrTag ++ r.text) ++ [lf], r.directives⟩

/-- `" [%s] %d: "`. -/
def logHeadFormat : Bytes := ascii " [%s] %d: " ++ [0]

/-- What is in `log_str_buf` up to `p` before the clamp. -/
def logLine (time tag : Bytes) (pid : BitVec 32) (fmt : Bytes) (args : List VaArg) :
    Option Bytes :=
  (mgxVslprintf (mgxMaxErrStrSize - time.length) logHeadFormat
      [.str (tag ++ [0]), .i32 pid]).bind fun head =>
    (mgxVslprintf (mgxMaxErrStrSize - (time ++ head.text).length) fmt args).map fun body =>
      time ++ head.text ++ body.text

/-- The buffer from its start, once `'\\n'` is gone: the line, and zeros behind it. -/
def lineMem (line : Bytes) : Bytes :=
  line ++ List.replicate (mgxMaxErrStrSize - line.length) 0

/-- What a call of `mgx_log` passes to `write` for the log and for stderr, and whether it closes the
log. -/
structure LogOut where
  file : Option Bytes
  stderr : List StderrLine
  closed : Bool
  deriving DecidableEq, Repr

/-- `mgx_log`. -/
def mgxLog (g : MgxLog) (level : Int) (time : Bytes) (pid : BitVec 32) (fmt : Bytes)
    (args : List VaArg) (write : Bytes → Int) (errStr : Bytes) : Option LogOut :=
  if level > g.logLevel then some ⟨none, [], false⟩
  else
    (logTag level).bind fun tag =>
      (logLine time tag pid fmt args).bind fun line =>
        let line := clampLine line
        let written := line ++ [lf]
        if write written ≠ written.length then
          (mgxLogStderr (ascii "write log error: %s" ++ [0]) [.str (errStr ++ [0])]).map fun e =>
            ⟨some written, [e, ⟨written, 0⟩], g.fd != 2⟩
        else if level = 0 ∨ g.debugMode then
          (mgxLogStderr (lineMem line) []).map fun e => ⟨some written, [e], false⟩
        else some ⟨some written, [], false⟩

/-- Stderr got the tag and the line of the log, cut to the buffer, with nothing interpreted. -/
def LogOut.Literal (o : LogOut) : Prop :=
  ∃ line, o.file = some (line ++ [lf]) ∧
    o.stderr = [⟨(stdErrTag ++ line).take (mgxMaxErrStrSize - 2) ++ [lf], 0⟩]

/-! ## A format without directives -/

/-- The loop copies what is neither a NUL nor a `%`. -/
theorem vslprintfLoop_literal {l : Bytes} (hnul : 0 ∉ l) (hpercent : ch '%' ∉ l) (rest : Bytes)
    (args : List VaArg) : ∀ turns room : Nat, l.length < turns → l.length ≤ room →
      vslprintfLoop turns room (l ++ rest) args =
        (vslprintfLoop (turns - l.length) (room - l.length) rest args).map (Printed.after l 0) := by
  induction l with
  | nil =>
    intro turns room _ _
    have hid : Printed.after [] 0 = id := by
      funext r
      show (⟨[] ++ r.text, 0 + r.directives⟩ : Printed) = r
      rw [List.nil_append, Nat.zero_add]
    rw [hid, Option.map_id]
    rfl
  | cons b l ih =>
    intro turns room hturns hroom
    obtain ⟨turns, rfl⟩ := Nat.exists_eq_add_one_of_ne_zero (Nat.ne_zero_of_lt hturns)
    obtain ⟨room, rfl⟩ := Nat.exists_eq_add_one_of_ne_zero (Nat.ne_zero_of_lt hroom)
    have hb : ¬ (b = 0 ∨ room + 1 = 0) := by
      rintro (rfl | hzero)
      · exact hnul (List.mem_cons_self ..)
      · omega
    have hchar : b ≠ ch '%' := by
      rintro rfl
      exact hpercent (List.mem_cons_self ..)
    rw [List.cons_append, vslprintfLoop, if_neg hb, if_neg hchar, Nat.add_sub_cancel,
      ih (fun h => hnul (List.mem_cons_of_mem _ h)) (fun h => hpercent (List.mem_cons_of_mem _ h))
        turns room (Nat.lt_of_succ_lt_succ hturns) (Nat.le_of_succ_le_succ hroom),
      Option.map_map, List.length_cons, Nat.add_sub_add_right, Nat.add_sub_add_right]
    congr 1
    funext r
    show (⟨[b] ++ (l ++ r.text), 0 + (0 + r.directives)⟩ : Printed) = ⟨b :: l ++ r.text, _⟩
    rw [Nat.zero_add]
    rfl

/-- At a `%`, with room left, a directive is taken or the behaviour is undefined. -/
theorem vslprintfLoop_percent {turns room : Nat} {fmt : Bytes} {args : List VaArg} {r : Printed}
    (hroom : 0 < room) (h : vslprintfLoop turns room (ch '%' :: fmt) args = some r) :
    0 < r.directives := by
  cases turns with
  | zero => cases h
  | succ turns =>
    have hpercent : ¬ (ch '%' = 0 ∨ room = 0) := by
      rintro (hzero | hzero)
      · exact absurd hzero (by decide)
      · omega
    rw [vslprintfLoop, if_neg hpercent, if_pos rfl] at h
    obtain ⟨⟨d, rest, args'⟩, -, h⟩ := Option.bind_eq_some_iff.mp h
    cases rest with
    | nil => cases h
    | cons conv rest =>
      obtain ⟨⟨o, args''⟩, -, h⟩ := Option.bind_eq_some_iff.mp h
      obtain ⟨out, -, h⟩ := Option.bind_eq_some_iff.mp h
      obtain ⟨r', -, rfl⟩ := Option.map_eq_some_iff.mp h
      exact Nat.lt_of_lt_of_le Nat.zero_lt_one (Nat.le_add_right 1 r'.directives)

section
variable {c : Bytes} (hnul : 0 ∉ c) (mem : Bytes) (args : List VaArg) (room : Nat)
include hnul

/-- A string without `%` as far as there is room is copied. -/
theorem mgxVslprintf_literal (h : ch '%' ∉ c.take room) :
    mgxVslprintf room (c ++ 0 :: mem) args = some ⟨c.take room, 0⟩ := by
  have hlen : (c ++ 0 :: mem).length = c.length + (mem.length + 1) := by
    rw [List.length_append, List.length_cons]
  unfold mgxVslprintf
  by_cases hroom : room ≤ c.length
  · have hsplit : c ++ 0 :: mem = c.take room ++ (c.drop room ++ 0 :: mem) := by
      rw [← List.append_assoc, List.take_append_drop]
    have htake : (c.take room).length = room := List.length_take_of_le hroom
    obtain ⟨turns, hturns⟩ : ∃ turns, (c ++ 0 :: mem).length + 1 - room = turns + 1 :=
      ⟨(c ++ 0 :: mem).length - room, by omega⟩
    have hloop := vslprintfLoop_literal (fun hm => hnul (List.mem_of_mem_take hm)) h
      (c.drop room ++ 0 :: mem) args ((c ++ 0 :: mem).length + 1) room (by omega) (by omega)
    rw [htake, Nat.sub_self, hturns, ← hsplit] at hloop
    rw [hloop]
    cases hdrop : c.drop room ++ 0 :: mem with
    | nil => simp at hdrop
    | cons b rest =>
      rw [vslprintfLoop, if_pos (.inr rfl)]
      show some (⟨c.take room ++ [], 0⟩ : Printed) = _
      rw [List.append_nil]
  · have htake : c.take room = c := List.take_of_length_le (by omega)
    rw [htake] at h ⊢
    obtain ⟨turns, hturns⟩ : ∃ turns, (c ++ 0 :: mem).length + 1 - c.length = turns + 1 :=
      ⟨(c ++ 0 :: mem).length - c.length, by omega⟩
    rw [vslprintfLoop_literal hnul h (0 :: mem) args _ _ (by omega) (by omega), hturns, vslprintfLoop,
      if_pos (.inl rfl)]
    show some (⟨c ++ [], 0⟩ : Printed) = _
    rw [List.append_nil]

/-- And only such a string: a `%` that is reached is a directive. -/
theorem mgxVslprintf_literal_iff :
    (∃ r, mgxVslprintf room (c ++ 0 :: mem) args = some r ∧ r.directives = 0) ↔
      ch '%' ∉ c.take room := by
  constructor
  · rintro ⟨r, hr, hzero⟩ hmem
    obtain ⟨l, rest, hsplit, hfirst⟩ := List.eq_append_cons_of_mem hmem
    have hc : c = l ++ ch '%' :: (rest ++ c.drop room) := by
      calc c = c.take room ++ c.drop room := (List.take_append_drop room c).symm
        _ = l ++ ch '%' :: (rest ++ c.drop room) := by rw [hsplit, List.append_assoc]; rfl
    have hroom : l.length < room := by
      have := congrArg List.length hsplit
      rw [List.length_take, List.length_append, List.length_cons] at this
      omega
    have hl : 0 ∉ l := fun hm => hnul (hc ▸ List.mem_append_left _ hm)
    have hlen : l.length < (c ++ 0 :: mem).length + 1 := by
      rw [hc, List.length_append, List.length_append]
      omega
    have hloop := vslprintfLoop_literal hl hfirst (ch '%' :: (rest ++ c.drop room) ++ 0 :: mem) args
      _ _ hlen (Nat.le_of_lt hroom)
    rw [← List.append_assoc, ← hc] at hloop
    rw [mgxVslprintf, hloop] at hr
    obtain ⟨r', hr', rfl⟩ := Option.map_eq_some_iff.mp hr
    have hpos := vslprintfLoop_percent (Nat.sub_pos_of_lt hroom) hr'
    have hsum : 0 + r'.directives = 0 := hzero
    omega
  · intro h
    exact ⟨_, mgxVslprintf_literal hnul mem args room h, rfl⟩

end

/-! ## The line as a format -/

theorem clampLine_eq (line : Bytes) : clampLine line = line.take (mgxMaxErrStrSize - 2) := by
  unfold clampLine
  by_cases hlen : line.length ≥ mgxMaxErrStrSize - 1
  · simp only [hlen, if_true]
  · simp only [hlen, if_false]
    have hle : line.length ≤ mgxMaxErrStrSize - 2 := by
      have hsize : mgxMaxErrStrSize - 1 = mgxMaxErrStrSize - 2 + 1 := rfl
      omega
    rw [List.take_length, List.take_of_length_le hle]

/-- The string in the buffer: the line up to its first NUL, which is there. -/
theorem lineMem_eq {line : Bytes} (h : line.length < mgxMaxErrStrSize) :
    ∃ mem, lineMem line = line.takeWhile (· ≠ 0) ++ 0 :: mem := by
  obtain ⟨n, hn⟩ : ∃ n, mgxMaxErrStrSize - line.length = n + 1 :=
    ⟨mgxMaxErrStrSize - line.length - 1, by omega⟩
  have hsplit : line.takeWhile (· ≠ 0) ++ line.dropWhile (· ≠ 0) = line :=
    List.takeWhile_append_dropWhile
  unfold lineMem
  rw [hn, List.replicate_succ]
  cases hdrop : line.dropWhile (· ≠ 0) with
  | nil =>
    rw [hdrop, List.append_nil] at hsplit
    exact ⟨List.replicate n 0, by rw [hsplit]⟩
  | cons b rest =>
    have hb : b = 0 := by
      have := List.head?_dropWhile_not (fun b : UInt8 => decide (b ≠ 0)) line
      rw [hdrop] at this
      simpa using this
    subst hb
    refine ⟨rest ++ 0 :: List.replicate n 0, ?_⟩
    calc line ++ 0 :: List.replicate n 0
        = (line.takeWhile (· ≠ 0) ++ line.dropWhile (· ≠ 0)) ++ 0 :: List.replicate n 0 := by
          rw [hsplit]
      _ = line.takeWhile (· ≠ 0) ++ 0 :: (rest ++ 0 :: List.replicate n 0) := by
          rw [hdrop, List.append_assoc, List.cons_append]

/-- No NUL is in a beginning of the line exactly when the string in the buffer has that beginning. -/
theorem take_takeWhile_eq_iff (line : Bytes) (n : Nat) :
    (line.takeWhile (· ≠ 0)).take n = line.take n ↔ 0 ∉ line.take n := by
  rw [List.take_takeWhile, List.takeWhile_eq_self_iff]
  constructor
  · intro h hmem
    have := h 0 hmem
    simp at this
  · intro h b hb
    have hne : b ≠ 0 := fun he => h (he ▸ hb)
    simp [hne]

/-- When stderr gets the tag and the line. -/
theorem stderr_literal_iff {line : Bytes} (h : line.length < mgxMaxErrStrSize) :
    mgxLogStderr (lineMem line) [] =
        some ⟨(stdErrTag ++ line).take (mgxMaxErrStrSize - 2) ++ [lf], 0⟩ ↔
      0 ∉ line.take 10233 ∧ ch '%' ∉ (line.takeWhile (· ≠ 0)).take 10235 := by
  have hnul : 0 ∉ line.takeWhile (· ≠ 0) := fun hm => by simpa using List.mem_takeWhile_imp hm
  obtain ⟨mem, hmem⟩ := lineMem_eq h
  have hroom : mgxMaxErrStrSize - stdErrTag.length = 10235 := by decide
  -- what is emitted of a text `x` after the tag
  have htag : ∀ x : Bytes, (stdErrTag ++ x).take (mgxMaxErrStrSize - 2) =
      stdErrTag ++ x.take 10233 := by
    intro x
    have hlen : stdErrTag.length = 5 := by decide
    rw [List.take_append, hlen, List.take_of_length_le (by rw [hlen]; decide)]
    rfl
  have hemit : ∀ x : Bytes, (x.take 10235).take 10233 = x.take 10233 := fun x => by
    rw [List.take_take]
    rfl
  unfold mgxLogStderr
  rw [hmem, hroom]
  simp only [clampLine_eq, htag]
  constructor
  · intro heq
    obtain ⟨r, hr, hline⟩ := Option.map_eq_some_iff.mp heq
    obtain ⟨hbytes, hzero⟩ := StderrLine.mk.inj hline
    have hpercent := (mgxVslprintf_literal_iff hnul mem [] 10235).mp ⟨r, hr, hzero⟩
    rw [mgxVslprintf_literal hnul mem [] 10235 hpercent] at hr
    obtain rfl := Option.some.inj hr
    refine ⟨(take_takeWhile_eq_iff line 10233).mp ?_, hpercent⟩
    rw [← hemit]
    exact List.append_cancel_left (List.append_cancel_right hbytes)
  · rintro ⟨hline, hpercent⟩
    rw [mgxVslprintf_literal hnul mem [] 10235 hpercent, Option.map_some, hemit,
      (take_takeWhile_eq_iff line 10233).mpr hline]

/-! ## What the line is -/

/-- The level and the process id as the line has them. -/
def logHead (tag : Bytes) (pid : BitVec 32) : Bytes :=
  ch ' ' :: ch '[' :: (tag ++ ch ']' :: ch ' ' ::
    ((plainDirective.signed (pid.signExtend 64)).text ++ [ch ':', ch ' ']))

theorem logTag_noNul {level : Int} {tag : Bytes} (h : logTag level = some tag) : 0 ∉ tag := by
  have hall : ∀ tag ∈ logTags, 0 ∉ tag := by decide
  obtain ⟨-, h⟩ := Option.ite_none_right_eq_some.mp h
  exact hall tag (List.mem_of_getElem? h)

theorem logHead_formats {tag : Bytes} (h : 0 ∉ tag) (pid : BitVec 32) :
    Formats logHeadFormat [.str (tag ++ [0]), .i32 pid] (logHead tag pid) := by
  have hformat : logHeadFormat = [ch ' ', ch '[', ch '%', ch 's', ch ']', ch ' ', ch '%', ch 'd',
      ch ':', ch ' ', 0] := by decide
  have htail : Formats [ch ':', ch ' ', 0] [] [ch ':', ch ' '] :=
    .literal (l := [ch ':', ch ' ']) (by decide) (by decide) (.nul [] [])
  have hpid : Formats [ch ']', ch ' ', ch '%', ch 'd', ch ':', ch ' ', 0] [.i32 pid]
      (ch ']' :: ch ' ' ::
        ((plainDirective.signed (pid.signExtend 64)).text ++ [ch ':', ch ' '])) :=
    .literal (l := [ch ']', ch ' ']) (by decide) (by decide) (.int pid htail)
  rw [hformat]
  exact .literal (l := [ch ' ', ch '[']) (by decide) (by decide) (.str h hpid)

/-- The line, as far as the buffer reaches: the time, the head and the text of the message. -/
theorem logLine_eq {time tag fmt text : Bytes} {pid : BitVec 32} {args : List VaArg}
    (htime : time.length < 64) (htag : 0 ∉ tag) (htext : Formats fmt args text) :
    logLine time tag pid fmt args =
      some ((time ++ logHead tag pid ++ text).take mgxMaxErrStrSize) := by
  have htake : time.take mgxMaxErrStrSize = time := List.take_of_length_le (by
    have hsize : mgxMaxErrStrSize = 10240 := rfl
    omega)
  obtain ⟨head, hhead, hheadText⟩ := Option.map_eq_some_iff.mp
    ((logHead_formats htag pid).prints (mgxMaxErrStrSize - time.length))
  have hprefix : time ++ head.text = (time ++ logHead tag pid).take mgxMaxErrStrSize := by
    rw [hheadText, ← take_append_take, htake]
  obtain ⟨body, hbody, hbodyText⟩ := Option.map_eq_some_iff.mp
    (htext.prints (mgxMaxErrStrSize - (time ++ head.text).length))
  unfold logLine
  rw [hhead, Option.bind_some, hbody, Option.map_some, hbodyText, hprefix, take_append_take]

/-- What of the line reaches the log. -/
def loggedLine (time tag : Bytes) (pid : BitVec 32) (text : Bytes) : Bytes :=
  (time ++ logHead tag pid ++ text).take (mgxMaxErrStrSize - 2)

section
variable {g : MgxLog} {level : Int} {time tag text errStr fmt : Bytes} {pid : BitVec 32}
  {args : List VaArg} {write : Bytes → Int}

/-- Where `mgx_log` also reports to stderr, the line is the format of the report. -/
theorem mgxLog_literal (hlevel : level ≤ g.logLevel) (htag : logTag level = some tag)
    (htime : time.length < 64) (htext : Formats fmt args text)
    (hwrite : ∀ bs, write bs = bs.length) (hreport : level = 0 ∨ g.debugMode = true) :
    (∃ o, mgxLog g level time pid fmt args write errStr = some o ∧ o.Literal) ↔
      mgxLogStderr (lineMem (loggedLine time tag pid text)) [] =
        some ⟨(stdErrTag ++ loggedLine time tag pid text).take (mgxMaxErrStrSize - 2) ++
          [lf], 0⟩ := by
  generalize hline : loggedLine time tag pid text = line
  have hclamp : clampLine ((time ++ logHead tag pid ++ text).take mgxMaxErrStrSize) = line := by
    rw [clampLine_eq, List.take_take]
    exact hline
  have hlog : mgxLog g level time pid fmt args write errStr =
      (mgxLogStderr (lineMem line) []).map fun e => ⟨some (line ++ [lf]), [e], false⟩ := by
    unfold mgxLog
    rw [if_neg (Int.not_lt.mpr hlevel), htag, Option.bind_some,
      logLine_eq htime (logTag_noNul htag) htext, Option.bind_some]
    simp only [hclamp, hwrite, ne_eq, not_true_eq_false, if_false, hreport, if_true]
  rw [hlog]
  constructor
  · rintro ⟨o, ho, line', hfile, hstderr⟩
    obtain ⟨e, he, rfl⟩ := Option.map_eq_some_iff.mp ho
    have hline' : line = line' := List.append_cancel_right (Option.some.inj hfile)
    rw [he, hline', (List.cons.inj hstderr).1]
  · intro he
    rw [he]
    exact ⟨_, rfl, _, rfl, rfl⟩

end

/-- The clamp is behind everything that is emitted or read. -/
theorem take_clamped (full : Bytes) :
    (full.take (mgxMaxErrStrSize - 2)).length < mgxMaxErrStrSize ∧
    (full.take (mgxMaxErrStrSize - 2)).take 10233 = full.take 10233 ∧
    ((full.take (mgxMaxErrStrSize - 2)).takeWhile (· ≠ 0)).take 10235 =
      (full.takeWhile (· ≠ 0)).take 10235 := by
  refine ⟨?_, ?_, ?_⟩
  · apply Nat.lt_of_le_of_lt (List.length_take_le ..)
    decide
  · rw [List.take_take]
    rfl
  · rw [List.take_takeWhile, List.take_takeWhile, List.take_take]
    rfl

/-- **When the log text is not interpreted twice.** Where `mgx_log` also reports to stderr, stderr
gets the tag and the line of the log, with every `%` as it is and no argument taken, if and only if
the line has no NUL in its first 10233 bytes and, before its first NUL, no `%` in its first 10235. -/
theorem log_literal_iff (g : MgxLog) (level : Int) (time tag text errStr : Bytes)
    (pid : BitVec 32) (fmt : Bytes) (args : List VaArg) (write : Bytes → Int)
    (hlevel : level ≤ g.logLevel) (htag : logTag level = some tag) (htime : time.length < 64)
    (htext : Formats fmt args text) (hwrite : ∀ bs, write bs = bs.length)
    (hreport : level = 0 ∨ g.debugMode = true) :
    (∃ o, mgxLog g level time pid fmt args write errStr = some o ∧ o.Literal) ↔
      0 ∉ (time ++ logHead tag pid ++ text).take 10233 ∧
        ch '%' ∉ ((time ++ logHead tag pid ++ text).takeWhile (· ≠ 0)).take 10235 := by
  obtain ⟨hlen, hnul, hpercent⟩ := take_clamped (time ++ logHead tag pid ++ text)
  rw [mgxLog_literal hlevel htag htime htext hwrite hreport]
  unfold loggedLine
  rw [stderr_literal_iff hlen, hnul, hpercent]

/-- `"request_body: %s"`. -/
def requestBodyFormat : Bytes := ascii "request_body: " ++ [ch '%', ch 's', 0]

theorem requestBody_formats {body : Bytes} (h : 0 ∉ body) :
    Formats requestBodyFormat [.str (body ++ [0])] (ascii "request_body: " ++ (body ++ [])) :=
  .literal (by decide) (by decide) (.str h (.nul [] []))

/-- Everything is logged, in debug mode. -/
def debugLog : MgxLog := ⟨8, 3, true⟩

/-- What `write` returns when it writes all. -/
def writeAll (bs : Bytes) : Int := bs.length

theorem log_literal_iff_abc : ∃ o, mgxLog debugLog 8 (ascii "2024-01-01 00:00:00") 7
    requestBodyFormat [.str (ascii "abc" ++ [0])] writeAll [] = some o ∧ o.Literal := by
  rw [log_literal_iff debugLog 8 (ascii "2024-01-01 00:00:00") (ascii "debug") _ [] 7
    requestBodyFormat _ writeAll (by decide) (by decide) (by decide)
    (requestBody_formats (by decide)) (fun _ => rfl) (.inr rfl)]
  decide

/-- A client whose body is `%d` makes the report take an argument that is not there. -/
theorem log_interpreted : ¬ ∃ o, mgxLog debugLog 8 (ascii "2024-01-01 00:00:00") 7
    requestBodyFormat [.str (ascii "%d" ++ [0])] writeAll [] = some o ∧ o.Literal := by
  intro h
  have htag : logTag 8 = some (ascii "debug") := by decide
  have hline := (mgxLog_literal (by decide) htag (by decide)
    (requestBody_formats (by decide)) (fun _ => rfl) (.inr rfl)).mp h
  unfold loggedLine at hline
  rw [stderr_literal_iff (take_clamped _).1] at hline
  exact absurd hline.2 (by decide)

end Mgx
