import Mgx.LogReport
import Mgx.Mysql

/-
  The query in a request.

  Whatever an HTTP request asks for, the worker makes `query_table("student")` on
  the handle of its connection before it responds. The table is shown in the log, a
  line for each name and for each value.

  Correspondence (C++ ↔ Lean):
    `c->sql`, what the library says, names and values   ↔ `Query`
    `mgx_log(MGX_LOG_NOTICE, "%10s\t", ..)`             ↔ `LogCtx.logCell`
    `c->sql->query_table("student")`                    ↔ `Query.run`

  A value of SQL is a null pointer when it is NULL. Names and values are logged
  between the fetches; a line that is undefined ends the process wherever it stands.
  Under USE_REDIS there is another query in its place, which is not modelled.

  What is proved: `Query.run_isSome_iff`. The query returns exactly when there is a
  handle with a result set to show, of 1000 fields at most, and each of its lines can
  be logged; or the statement fails and an earlier one left its result set.
-/
namespace Mgx
open CMem Mysql

/-- `"%10s\t"`. -/
def cellFormat : Bytes := [ch '%', ch '1', ch '0', ch 's', 9, 0]

/-- A name or a value is logged; `none` is a null pointer. -/
def LogCtx.logCell (x : LogCtx) (cell : Option CStr) : Option LogOut :=
  x.mgxLog logNotice cellFormat [.str ((cell.map fun s => s.1 ++ [0]).getD [])]

/-- What the query of a request meets: the handle, what the library says to the statement, the names
of the fields and the values of the rows, and what the log finds for each. -/
structure Query where
  handle : Option Sql
  answer : Answer
  name : Nat → CStr
  value : Nat → Nat → Option CStr
  nameLog : Nat → LogCtx
  valueLog : Nat → Nat → LogCtx

/-- The lines of `display__res`, for so many fields and rows. -/
def Query.lines (q : Query) (fields rows : Nat) : Bool :=
  ((List.range fields).all fun i => ((q.nameLog i).logCell (some (q.name i))).isSome) &&
    (List.range rows).all fun r => (List.range fields).all fun i =>
      ((q.valueLog r i).logCell (q.value r i)).isSome

/-- `c->sql->query_table("student")`: the handle behind it. -/
def Query.run (q : Query) : Option Sql :=
  q.handle.bind fun s =>
    (step s (.queryTable student q.answer)).bind fun s =>
      if s.broken || !q.lines s.fieldNum.toNat q.answer.numRows then none else some s

/-- The line of a name or a value can be logged: it is not, or there is something to print and the
line takes no argument. -/
def LogCtx.LogsCell (x : LogCtx) (cell : Option CStr) : Prop :=
  x.log.logLevel < logNotice ∨
    ∃ s, cell = some s ∧ x.TakesNone logNotice noticeTag (s.1 ++ [9])

/-- Every line of the table can be logged. -/
structure Query.Logs (q : Query) (fields rows : Nat) : Prop where
  names : ∀ i < fields, (q.nameLog i).LogsCell (some (q.name i))
  values : ∀ r < rows, ∀ i < fields, (q.valueLog r i).LogsCell (q.value r i)

/-- The number of fields as `field_num` has it. -/
def fieldNumOf (fields : Nat) : Nat := (Int.bmod fields (2 ^ 32)).toNat

/-- A result set that can be shown. -/
def Query.Shows (q : Query) : Prop :=
  ∃ fields rows, q.answer = .resultSet fields rows ∧
    fieldNumOf fields ≤ maxSqlSentenceLength ∧ q.Logs (fieldNumOf fields) rows

/-- The handle is there and sound, with a result set to show: that of the statement, or, where it is
not executed or fails, that of an earlier one. -/
def Query.Returns (q : Query) : Prop :=
  ∃ s, q.handle = some s ∧ s.broken = false ∧
    ((s.state = true ∧ q.Shows) ∨
      ((s.state = false ∨ q.answer = .fails) ∧ ∃ n, s.res = .stored n))

/-! ## The lines -/

/-- What `%10s` and a tab make of a string: the width is not used. -/
theorem cell_formats (s : CStr) : Formats cellFormat [.str (s.1 ++ [0])] (s.1 ++ [9]) := by
  obtain ⟨htext, hread⟩ := output_str s.2
  have htab : Formats [9, 0] [] [9] := .char (by decide) (by decide) (.nul [] [])
  nth_rewrite 2 [← htext]
  exact .directive rfl (by decide) rfl hread htab

/-- A null pointer is read as soon as there is room. -/
theorem mgxVslprintf_cell_null {room : Nat} (h : 0 < room) :
    mgxVslprintf room cellFormat [.str []] = none := by
  obtain ⟨room, rfl⟩ := Nat.exists_eq_add_one_of_ne_zero h.ne'
  rfl

theorem LogCtx.logCell_none {x : LogCtx} (h : logNotice ≤ x.log.logLevel) :
    x.logCell none = none := by
  have hhead := head_length logTag_notice x
  have hsize : mgxMaxErrStrSize = 10240 := rfl
  exact mgxLog_eq_none h logTag_notice (mgxVslprintf_cell_null (by omega))

theorem LogCtx.logCell_isSome_iff (x : LogCtx) (cell : Option CStr) :
    (x.logCell cell).isSome ↔ x.LogsCell cell := by
  cases cell with
  | none =>
    by_cases hlevel : x.log.logLevel < logNotice
    · rw [logCell, mgxLog_of_lt hlevel]
      exact iff_of_true rfl (.inl hlevel)
    · rw [logCell_none (Int.not_lt.mp hlevel)]
      refine iff_of_false Bool.noConfusion ?_
      rintro (h | ⟨s, hs, -⟩)
      · exact hlevel h
      · cases hs
  | some s =>
    rw [logCell]
    exact (mgxLog_isSome_iff logTag_notice (cell_formats s)).trans (by simp [LogsCell])

theorem Query.lines_iff (q : Query) (fields rows : Nat) :
    q.lines fields rows = true ↔ q.Logs fields rows := by
  simp only [lines, Bool.and_eq_true, List.all_eq_true, List.mem_range, LogCtx.logCell_isSome_iff]
  exact ⟨fun ⟨hnames, hvalues⟩ => ⟨hnames, hvalues⟩, fun h => ⟨h.names, h.values⟩⟩

/-! ## The fetches -/

namespace Mysql

/-- What the fetches of `n` fields have done, from a result set that has as many. -/
structure Named (n : Nat) (s s' : Sql) : Prop where
  res : s'.res = s.res
  rowsLeft : s'.rowsLeft = s.rowsLeft
  fieldNum : s'.fieldNum = s.fieldNum
  fieldsLeft : n ≤ maxSqlSentenceLength → s'.fieldsLeft + n = s.fieldsLeft
  broken : s'.broken = decide (maxSqlSentenceLength < n)

theorem fetch_stored {s : Sql} {k : Nat} (h : s.res = .stored k) : (fetch s).broken = false := by
  rw [fetch, h]
  rfl

/-- The names run over the array behind the first 1000. -/
theorem foldl_fetchField_named {s : Sql} {k : Nat} (hres : s.res = .stored k)
    (hbroken : s.broken = false) : ∀ n ≤ s.fieldsLeft,
      Named n s ((List.range n).foldl fetchField s) := by
  intro n
  induction n with
  | zero => exact fun _ => ⟨rfl, rfl, rfl, fun _ => rfl, hbroken⟩
  | succ n ih =>
    intro hn
    have h := ih (Nat.le_of_succ_le hn)
    rw [List.range_succ, List.foldl_append, List.foldl_cons, List.foldl_nil]
    generalize (List.range n).foldl fetchField s = s' at h
    unfold fetchField
    by_cases hover : maxSqlSentenceLength < n
    · rw [if_pos (by rw [h.broken, decide_eq_true hover])]
      refine ⟨h.res, h.rowsLeft, h.fieldNum, fun hle => absurd hover (by omega), ?_⟩
      rw [h.broken, decide_eq_true hover, decide_eq_true (Nat.lt_succ_of_lt hover)]
    · have hleft := h.fieldsLeft (Nat.le_of_not_lt hover)
      have hfield : (s'.fieldsLeft == 0) = false := by
        rw [beq_eq_false_iff_ne]
        omega
      rw [if_neg (by rw [h.broken, decide_eq_false hover]; exact Bool.false_ne_true),
        if_neg (by rw [fetch_stored (h.res.trans hres)]; exact Bool.false_ne_true)]
      refine ⟨h.res, h.rowsLeft, h.fieldNum, fun _ => ?_, ?_⟩
      · show s'.fieldsLeft - 1 + (n + 1) = s.fieldsLeft
        omega
      · show (s'.fieldsLeft == 0 || decide (maxSqlSentenceLength ≤ n)) = _
        rw [hfield, Bool.false_or]
        exact decide_eq_decide.mpr Nat.lt_succ_iff.symm

/-- Rows can be fetched from a result set only. -/
theorem fetchRows_broken (rows : Nat) (s : Sql) :
    ((fetchRows rows s).broken = false ↔ ∃ k, s.res = .stored k) ∧
      (fetchRows rows s).fieldNum = s.fieldNum := by
  have hfetch : ∀ s : Sql, (fetch s).broken = false ↔ ∃ k, s.res = .stored k := by
    intro s
    rw [fetch]
    cases s.res with
    | null => simp
    | made => simp
    | stored k => simp
  induction rows generalizing s with
  | zero => exact ⟨hfetch s, rfl⟩
  | succ rows ih =>
    rw [fetchRows]
    split
    next h => exact ⟨hfetch s, rfl⟩
    next h => exact ih { fetch s with rowsLeft := rows }

/-- Nothing to name: a row is fetched through the pointer. -/
theorem displayRes_broken_of_noFields {s : Sql} (hbroken : s.broken = false)
    (hnum : s.fieldNum.toNat = 0) :
    ((displayRes s).broken = false ↔ ∃ k, s.res = .stored k) ∧
      (displayRes s).fieldNum = s.fieldNum := by
  unfold displayRes
  rw [hnum, List.range_zero, List.foldl_nil, if_neg (by rw [hbroken]; exact Bool.false_ne_true)]
  exact fetchRows_broken _ s

/-- A result set with the fields it is said to have can be shown when there are at most 1000. -/
theorem displayRes_broken_of_stored {s : Sql} {k : Nat} (hres : s.res = .stored k)
    (hbroken : s.broken = false) (hnum : s.fieldNum.toNat ≤ s.fieldsLeft) :
    ((displayRes s).broken = false ↔ s.fieldNum.toNat ≤ maxSqlSentenceLength) ∧
      (displayRes s).fieldNum = s.fieldNum := by
  have hnamed := foldl_fetchField_named hres hbroken _ hnum
  unfold displayRes
  generalize (List.range s.fieldNum.toNat).foldl fetchField s = s' at hnamed
  by_cases hover : maxSqlSentenceLength < s.fieldNum.toNat
  · have hend : s'.broken = true := by rw [hnamed.broken, decide_eq_true hover]
    rw [if_pos hend, hend]
    exact ⟨iff_of_false Bool.noConfusion (Nat.not_le.mpr hover), hnamed.fieldNum⟩
  · obtain ⟨hiff, hsame⟩ := fetchRows_broken s'.rowsLeft s'
    rw [if_neg (by rw [hnamed.broken, decide_eq_false hover]; exact Bool.false_ne_true), hiff,
      hnamed.res, hsame]
    exact ⟨iff_of_true ⟨k, hres⟩ (Nat.le_of_not_lt hover), hnamed.fieldNum⟩

/-- From an object that is no result set nothing can be fetched. -/
theorem displayRes_broken_of_made {s : Sql} (hres : s.res = .made) (hbroken : s.broken = false) :
    (displayRes s).broken = true := by
  obtain ⟨n, hfetched, -⟩ := foldl_fetchField hbroken (List.range s.fieldNum.toNat)
  unfold displayRes
  generalize (List.range s.fieldNum.toNat).foldl fetchField s = s' at hfetched
  by_cases hend : s'.broken = true
  · rw [if_pos hend]
    exact hend
  · rw [if_neg hend]
    by_contra hfine
    obtain ⟨k, hk⟩ := (fetchRows_broken s'.rowsLeft s').1.mp (Bool.not_eq_true _ ▸ hfine)
    rw [hfetched.res, hres] at hk
    cases hk

/-! ## The statement -/

theorem queryText_student_length : ¬ maxSqlSentenceLength ≤ (queryText student).length := by
  decide +kernel

/-- A statement that is not executed or fails leaves the pointer, and no fields. -/
theorem excuteSql_unanswered {s : Sql} {answer : Answer}
    (h : s.state = false ∨ answer = .fails) :
    ∃ s', excuteSql s (queryText student) answer = some s' ∧ s'.res = s.res ∧
      s'.broken = s.broken ∧ s'.fieldNum = 0 := by
  unfold excuteSql query
  rw [if_neg queryText_student_length]
  by_cases hstate : s.state = false
  · rw [if_pos hstate]
    exact ⟨_, rfl, rfl, rfl, rfl⟩
  · obtain rfl := h.resolve_left hstate
    rw [if_neg hstate]
    exact ⟨_, rfl, rfl, rfl, rfl⟩

theorem excuteSql_noResult {s : Sql} {numRows fieldCount : Nat} (h : s.state = true) :
    ∃ s', excuteSql s (queryText student) (.noResult numRows fieldCount) = some s' ∧
      s'.res = .made ∧ s'.broken = s.broken := by
  unfold excuteSql query
  rw [if_neg queryText_student_length, if_neg (by rw [h]; exact Bool.noConfusion)]
  exact ⟨_, rfl, rfl, rfl⟩

theorem excuteSql_resultSet {s : Sql} (fields rows : Nat) (h : s.state = true) :
    ∃ s', excuteSql s (queryText student) (.resultSet fields rows) = some s' ∧
      s'.res = .stored s'.statement ∧ s'.broken = s.broken ∧ s'.fieldsLeft = fields ∧
      s'.fieldNum = Int.bmod fields (2 ^ 32) := by
  unfold excuteSql query
  rw [if_neg queryText_student_length, if_neg (by rw [h]; exact Bool.noConfusion)]
  simp [Answer.fieldCount]

end Mysql

theorem fieldNumOf_le (fields : Nat) : fieldNumOf fields ≤ fields := by
  have hle : Int.bmod fields (2 ^ 32) ≤ fields := by
    rw [Int.bmod_def]
    split <;> omega
  unfold fieldNumOf
  omega

/-! ## The query -/

/-- What a sound handle makes of the query. -/
theorem Query.run_of_excuteSql {q : Query} {s s' : Sql} (hhandle : q.handle = some s)
    (hbroken : s.broken = false) (h : excuteSql s (queryText student) q.answer = some s') :
    q.run.isSome ↔ (displayRes s').broken = false ∧
      q.Logs (displayRes s').fieldNum.toNat q.answer.numRows := by
  have hstep : step s (.queryTable student q.answer) = some (displayRes s') := by
    rw [step, if_neg (by rw [hbroken]; exact Bool.noConfusion), queryTable, h, Option.map_some]
  rw [← q.lines_iff, run, hhandle, Option.bind_some, hstep, Option.bind_some]
  cases (displayRes s').broken with
  | true => simp
  | false => cases q.lines (displayRes s').fieldNum.toNat q.answer.numRows <;> simp

/-- The statement is not executed, or it fails: the result set of an earlier one is shown, if there
is one. -/
theorem Query.run_of_unanswered {q : Query} {s : Sql} (hhandle : q.handle = some s)
    (hbroken : s.broken = false) (hnone : s.state = false ∨ q.answer = .fails) :
    q.run.isSome ↔ ∃ n, s.res = .stored n := by
  obtain ⟨s', hexcute, hres, hsound, hnum⟩ := excuteSql_unanswered hnone
  obtain ⟨hiff, hsame⟩ := displayRes_broken_of_noFields (hsound.trans hbroken)
    (by rw [hnum]; rfl)
  have hlogs : q.Logs 0 q.answer.numRows :=
    ⟨fun i hi => absurd hi (Nat.not_lt_zero i), fun _ _ i hi => absurd hi (Nat.not_lt_zero i)⟩
  rw [run_of_excuteSql hhandle hbroken hexcute, hiff, hsame, hnum, hres]
  exact and_iff_left hlogs

/-- The statement is executed and answered: only a result set can be shown. -/
theorem Query.run_of_answered {q : Query} {s : Sql} (hhandle : q.handle = some s)
    (hbroken : s.broken = false) (hstate : s.state = true) (hanswered : q.answer ≠ .fails) :
    q.run.isSome ↔ q.Shows := by
  unfold Shows
  cases hanswer : q.answer with
  | fails => exact absurd hanswer hanswered
  | noResult numRows fieldCount =>
    obtain ⟨s', hexcute, hres, hsound⟩ := excuteSql_noResult hstate
    rw [run_of_excuteSql hhandle hbroken (hanswer ▸ hexcute),
      displayRes_broken_of_made hres (hsound.trans hbroken)]
    refine iff_of_false (fun h => Bool.noConfusion h.1) ?_
    intro h
    obtain ⟨fields, rows, heq, -⟩ := h
    cases heq
  | resultSet fields rows =>
    obtain ⟨s', hexcute, hres, hsound, hfields, hnum⟩ :=
      excuteSql_resultSet fields rows hstate
    have hnum' : s'.fieldNum.toNat = fieldNumOf fields := by
      rw [hnum]
      rfl
    obtain ⟨hiff, hsame⟩ := displayRes_broken_of_stored hres (hsound.trans hbroken)
      (by rw [hnum', hfields]; exact fieldNumOf_le fields)
    rw [run_of_excuteSql hhandle hbroken (hanswer ▸ hexcute), hiff, hsame, hnum', hanswer]
    constructor
    · intro h
      exact ⟨fields, rows, rfl, h⟩
    · intro h
      obtain ⟨fields', rows', heq, h⟩ := h
      cases heq
      exact h

/-- **When the query of a request returns.** There is a handle, nothing was read through a pointer to
no result set on it before, and either the statement has a result set of at most 1000 fields, each
name and value of which can be logged; or it is not executed or fails, and an earlier statement left
its result set. -/
theorem Query.run_isSome_iff (q : Query) : q.run.isSome ↔ q.Returns := by
  unfold Returns
  cases hhandle : q.handle with
  | none =>
    rw [run, hhandle]
    refine iff_of_false Bool.noConfusion ?_
    intro h
    obtain ⟨s, hsome, -⟩ := h
    cases hsome
  | some s =>
    simp only [Option.some.injEq, exists_eq_left']
    cases hbroken : s.broken with
    | true =>
      rw [run, hhandle, Option.bind_some, step, if_pos hbroken]
      exact iff_of_false Bool.noConfusion fun h => Bool.noConfusion h.1
    | false =>
      rw [and_iff_right rfl]
      by_cases hnone : s.state = false ∨ q.answer = .fails
      · have hshows : ¬ (s.state = true ∧ q.Shows) := by
          intro h
          obtain ⟨hstate, fields, rows, hanswer, -⟩ := h
          rcases hnone with hfalse | hfails
          · rw [hstate] at hfalse
            cases hfalse
          · rw [hanswer] at hfails
            cases hfails
        rw [run_of_unanswered hhandle hbroken hnone, or_iff_right hshows, and_iff_right hnone]
      · obtain ⟨hopen, hanswered⟩ := not_or.mp hnone
        have hstate : s.state = true := Bool.not_eq_false _ ▸ hopen
        rw [run_of_answered hhandle hbroken hstate hanswered, or_iff_left fun h => hnone h.1,
          and_iff_right hstate]

/-- A handle just connected, and a table of one field without rows; nothing is logged. -/
def quietQuery : Query where
  handle := some (Mysql.new true)
  answer := .resultSet 1 0
  name := fun _ => student
  value := fun _ _ => none
  nameLog := fun _ => quietLog.ctx
  valueLog := fun _ _ => quietLog.ctx

theorem quietQuery_returns : quietQuery.Returns := by
  have hquiet : quietLog.logLevel < logNotice := by decide
  refine ⟨_, rfl, rfl, .inl ⟨rfl, 1, 0, rfl, by decide, fun _ _ => .inl hquiet, fun r hr => ?_⟩⟩
  exact absurd hr (Nat.not_lt_zero r)

end Mgx
