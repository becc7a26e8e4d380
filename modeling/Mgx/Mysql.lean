import Mgx.Lib.Runs
import Mgx.HttpRequest

/-
  The database handle of a connection: what the display loop reads from.

  Every statement goes through `excute_sql`, which sets the number of fields back but
  not the pointer to the result. A statement that has no result set to show leaves the
  pointer as it was, or on an object that `query` makes so that its result is not null.
  `display__res` then fetches a row through that pointer, whatever the statement did.

  Correspondence (C++ ↔ Lean), `misc/mgx_mysql.cpp`, `include/mgx_mysql.h`:
    `Mgx_mysql::connect`                       ↔ `connect`
    `Mgx_mysql::query`                         ↔ `query`
    `get__res_row_num`, `get__res_field_num`   ↔ `Answer.numRows`, `Answer.fieldCount`
    `Mgx_mysql::excute_sql`                    ↔ `excuteSql`
    the first loop of `display__res`           ↔ `fetchField`, for each index
    the last loop of `display__res`            ↔ `fetchRows`
    `Mgx_mysql::query_table`                   ↔ `queryTable`

  A step is undefined where `sprintf` overruns `_query`, and after the handle has
  read through a pointer to no result set. What is logged of names and values is left
  out.

  What is proved: `query_results_iff`. In a run every fetch reads the result set of
  the statement just executed exactly when every statement finds the connection open,
  does not fail, and has a result set.
-/
namespace Mgx
namespace Mysql
open Runs CMem

/-! ## The code -/

/-- What `_res` points to: nothing, a `new MYSQL_RES`, or the result set of a statement. -/
inductive Res where
  | null
  | made
  | stored (statement : Nat)
  deriving DecidableEq

/-- What the library answers to a statement: `mysql_query` fails, `mysql_store_result` is null, or
there is a result set. In the second case `numRows` is what the memory of the new object holds. -/
inductive Answer where
  | fails
  | noResult (numRows fieldCount : Nat)
  | resultSet (fields rows : Nat)

/-- `mysql_num_rows`. -/
def Answer.numRows : Answer → Nat
  | fails => 0
  | noResult numRows _ => numRows
  | resultSet _ rows => rows

/-- `mysql_field_count`. -/
def Answer.fieldCount : Answer → Nat
  | fails => 0
  | noResult _ fieldCount => fieldCount
  | resultSet fields _ => fields

/-- The handle. `statement` counts the statements, `calls` are the fetches with the pointer they
were given and the statement they came after. -/
structure Sql where
  state : Bool
  res : Res
  /-- What is left to fetch of the result set that `res` points to. -/
  fieldsLeft : Nat
  rowsLeft : Nat
  excuteStatus : Int
  resRowsNum : Int
  fieldNum : Int
  statement : Nat
  calls : List (Res × Nat)
  /-- A fetch has read through a pointer to no result set, or the names did not fit. -/
  broken : Bool

/-- `MAX_SQL_SENTENCE_LENGTH`. -/
def maxSqlSentenceLength : Nat := 1000

/-- `connect`: `ok` is what `mysql_real_connect` says. -/
def connect (s : Sql) (ok : Bool) : Sql × Bool :=
  if s.state then (s, true) else ({ s with state := ok }, ok)

/-- `Mgx_mysql()`. -/
def new (ok : Bool) : Sql :=
  (connect ⟨false, .null, 0, 0, 0, 0, 0, 0, [], false⟩ ok).1

/-- `query`, and whether its result is not null. -/
def query (s : Sql) (answer : Answer) : Sql × Bool :=
  if s.state = false then (s, false)
  else match answer with
    | .fails => (s, false)
    | .noResult _ _ => ({ s with res := .made }, true)
    | .resultSet fields rows =>
      ({ s with res := .stored s.statement, fieldsLeft := fields, rowsLeft := rows }, true)

/-- `excute_sql`. -/
def excuteSql (s : Sql) (text : Bytes) (answer : Answer) : Option Sql :=
  if maxSqlSentenceLength ≤ text.length then none
  else
    let (s, found) := query { s with
      excuteStatus := 0, resRowsNum := 0, fieldNum := 0, statement := s.statement + 1 } answer
    if found then some { s with
      excuteStatus := 1
      resRowsNum := Int.bmod answer.numRows (2 ^ 32)
      fieldNum := Int.bmod answer.fieldCount (2 ^ 32) }
    else some { s with excuteStatus := 0, resRowsNum := 0, fieldNum := 0 }

/-- `mysql_fetch_field(_res)` or `mysql_fetch_row(_res)`. -/
def fetch (s : Sql) : Sql :=
  { s with
    calls := s.calls ++ [(s.res, s.statement)]
    broken := s.res == .null || s.res == .made }

/-- One name: there is one left in the result set, and a place for it. -/
def fetchField (s : Sql) (i : Nat) : Sql :=
  if s.broken then s
  else if (fetch s).broken then fetch s
  else { fetch s with
    fieldsLeft := s.fieldsLeft - 1
    broken := s.fieldsLeft == 0 || maxSqlSentenceLength ≤ i }

/-- The rows that are left, and the null behind them. -/
def fetchRows : Nat → Sql → Sql
  | 0, s => fetch s
  | rows + 1, s =>
    if (fetch s).broken then fetch s else fetchRows rows { fetch s with rowsLeft := rows }

/-- `display__res`. -/
def displayRes (s : Sql) : Sql :=
  let s := (List.range s.fieldNum.toNat).foldl fetchField s
  if s.broken then s else fetchRows s.rowsLeft s

/-- The statement of `query_table`. -/
def queryText (tableName : CStr) : Bytes :=
  if tableName.1 = ascii "app_produce_data" then
    ascii "select * from " ++ tableName.1 ++ ascii " WHERE is_delete = 0"
  else ascii "select * from " ++ tableName.1

/-- `query_table`. -/
def queryTable (s : Sql) (tableName : CStr) (answer : Answer) : Option Sql :=
  (excuteSql s (queryText tableName) answer).map displayRes

inductive Act where
  | connect (ok : Bool)
  | queryTable (tableName : CStr) (answer : Answer)

def step (s : Sql) : Act → Option Sql
  | .connect ok => if s.broken then none else some (connect s ok).1
  | .queryTable tableName answer =>
    if s.broken then none else queryTable s tableName answer

/-- Every fetch was given the result set of the statement just executed. -/
def CallsCurrent (s : Sql) : Prop := ∀ call ∈ s.calls, call.1 = .stored call.2

instance (s : Sql) : Decidable (CallsCurrent s) :=
  inferInstanceAs (Decidable (∀ call ∈ s.calls, _))

/-- The statement is answered with a result set. -/
def Answered (s : Sql) : Act → Prop
  | .connect _ => True
  | .queryTable _ answer => s.state = true ∧ ∃ fields rows, answer = .resultSet fields rows

/-! ## What the display loop fetches -/

/-- `n` fetches through the pointer, and nothing else that a later statement sees. -/
structure Fetched (n : Nat) (s s' : Sql) : Prop where
  calls : s'.calls = s.calls ++ List.replicate n (s.res, s.statement)
  res : s'.res = s.res
  statement : s'.statement = s.statement

namespace Fetched

theorem refl (s : Sql) : Fetched 0 s s := ⟨(List.append_nil _).symm, rfl, rfl⟩

theorem fetch (s : Sql) : Fetched 1 s (fetch s) := ⟨rfl, rfl, rfl⟩

theorem trans {n m : Nat} {a b c : Sql} (hab : Fetched n a b) (hbc : Fetched m b c) :
    Fetched (n + m) a c := by
  refine ⟨?_, hbc.res.trans hab.res, hbc.statement.trans hab.statement⟩
  rw [hbc.calls, hab.calls, hab.res, hab.statement, List.append_assoc,
    List.replicate_append_replicate]

/-- They are of the result set of the statement exactly if the pointer is. -/
theorem current_iff {n : Nat} {s s' : Sql} (h : Fetched (n + 1) s s') :
    CallsCurrent s' ↔ CallsCurrent s ∧ s.res = .stored s.statement := by
  unfold CallsCurrent
  rw [h.calls]
  constructor
  · intro hall
    refine ⟨fun call hmem => hall call (List.mem_append_left _ hmem), ?_⟩
    apply hall (s.res, s.statement)
    exact List.mem_append_right _ (List.mem_replicate.mpr ⟨Nat.succ_ne_zero n, rfl⟩)
  · intro ⟨hbefore, hres⟩ call hmem
    rcases List.mem_append.mp hmem with hmem | hmem
    · exact hbefore call hmem
    · obtain rfl := List.eq_of_mem_replicate hmem
      exact hres

end Fetched

theorem fetchField_of_broken {s : Sql} (h : s.broken = true) (i : Nat) : fetchField s i = s := by
  rw [fetchField, if_pos h]

theorem fetchField_fetched {s : Sql} (h : s.broken = false) (i : Nat) :
    Fetched 1 s (fetchField s i) := by
  rw [fetchField, if_neg (by simp [h])]
  split
  · exact .fetch s
  · exact ⟨rfl, rfl, rfl⟩

/-- The loop over the fields has fetched where it ends the process. -/
theorem foldl_fetchField {s : Sql} (h : s.broken = false) (l : List Nat) :
    ∃ n, Fetched n s (l.foldl fetchField s) ∧
      ((l.foldl fetchField s).broken = true → 0 < n) := by
  induction l generalizing s with
  | nil =>
    refine ⟨0, .refl s, fun hbroken => ?_⟩
    rw [List.foldl_nil, h] at hbroken
    cases hbroken
  | cons i l ih =>
    rw [List.foldl_cons]
    have hfirst := fetchField_fetched h i
    cases hbroken : (fetchField s i).broken with
    | true =>
      refine ⟨1, ?_, fun _ => Nat.one_pos⟩
      rw [List.foldl_fixed' (fetchField_of_broken hbroken)]
      exact hfirst
    | false =>
      obtain ⟨n, hrest, -⟩ := ih hbroken
      exact ⟨1 + n, hfirst.trans hrest, fun _ => Nat.lt_add_right n Nat.one_pos⟩

theorem fetchRows_fetched (rows : Nat) (s : Sql) : ∃ n, Fetched (n + 1) s (fetchRows rows s) := by
  induction rows generalizing s with
  | zero => exact ⟨0, .fetch s⟩
  | succ rows ih =>
    rw [fetchRows]
    split
    · exact ⟨0, .fetch s⟩
    · obtain ⟨n, hrest⟩ := ih { fetch s with rowsLeft := rows }
      have hfirst : Fetched 1 s { fetch s with rowsLeft := rows } := ⟨rfl, rfl, rfl⟩
      rw [Nat.add_comm n 1] at hrest
      exact ⟨1 + n, Nat.add_comm 1 (1 + n) ▸ hfirst.trans hrest⟩

/-- The display loop fetches at least once, whatever the statement did. -/
theorem displayRes_fetched {s : Sql} (h : s.broken = false) :
    ∃ n, Fetched (n + 1) s (displayRes s) := by
  obtain ⟨n, hfields, hpos⟩ := foldl_fetchField h (List.range s.fieldNum.toNat)
  simp only [displayRes]
  split
  · next hbroken =>
    obtain ⟨k, rfl⟩ := Nat.exists_eq_succ_of_ne_zero (hpos hbroken).ne'
    exact ⟨k, hfields⟩
  · obtain ⟨k, hrows⟩ := fetchRows_fetched _ ((List.range s.fieldNum.toNat).foldl fetchField s)
    exact ⟨n + k, Nat.add_assoc n k 1 ▸ hfields.trans hrows⟩

/-! ## What a statement leaves in the pointer -/

/-- A result set belongs to a statement that was executed. -/
def Executed (s : Sql) : Prop := ∀ n, s.res = .stored n → n ≤ s.statement

/-- `excute_sql` fetches nothing, and leaves the result set of its statement exactly when the
statement has one. -/
theorem excuteSql_spec {s s' : Sql} {text : Bytes} {answer : Answer} (hs : Executed s)
    (h : excuteSql s text answer = some s') :
    s'.calls = s.calls ∧ s'.broken = s.broken ∧ Executed s' ∧
    (s'.res = .stored s'.statement ↔
      s.state = true ∧ ∃ fields rows, answer = .resultSet fields rows) := by
  -- a pointer that was not set is not to the result set of the new statement
  have hold : s.res ≠ .stored (s.statement + 1) := fun heq => Nat.not_succ_le_self _ (hs _ heq)
  have hlater : ∀ n, s.res = .stored n → n ≤ s.statement + 1 :=
    fun n heq => Nat.le_succ_of_le (hs n heq)
  unfold excuteSql query at h
  split at h
  · cases h
  · cases hstate : s.state with
    | false =>
      rw [hstate, if_pos rfl] at h
      obtain rfl := Option.some.inj h
      exact ⟨rfl, rfl, hlater, iff_of_false hold fun hok => nomatch hok.1⟩
    | true =>
      rw [hstate, if_neg Bool.true_eq_false_eq_False] at h
      cases answer with
      | fails =>
        obtain rfl := Option.some.inj h
        exact ⟨rfl, rfl, hlater, iff_of_false hold fun ⟨_, _, _, heq⟩ => nomatch heq⟩
      | noResult numRows fieldCount =>
        obtain rfl := Option.some.inj h
        exact ⟨rfl, rfl, nofun, iff_of_false nofun fun ⟨_, _, _, heq⟩ => nomatch heq⟩
      | resultSet fields rows =>
        obtain rfl := Option.some.inj h
        exact ⟨rfl, rfl, fun n heq => (Res.stored.inj heq).ge,
          iff_of_true rfl ⟨rfl, fields, rows, rfl⟩⟩

/-- After a step the fetches are current exactly if they were and the statement was answered. -/
theorem step_spec {s s' : Sql} {a : Act} (hs : Executed s) (h : step s a = some s') :
    Executed s' ∧ (CallsCurrent s' ↔ CallsCurrent s ∧ Answered s a) := by
  cases a with
  | connect ok =>
    simp only [step, connect] at h
    split at h
    · cases h
    · split at h
      · obtain rfl := Option.some.inj h
        exact ⟨hs, (and_iff_left trivial).symm⟩
      · obtain rfl := Option.some.inj h
        exact ⟨hs, (and_iff_left trivial).symm⟩
  | queryTable tableName answer =>
    rw [step] at h
    split at h
    · cases h
    · next hbroken =>
      obtain ⟨m, hm, rfl⟩ := Option.map_eq_some_iff.mp h
      obtain ⟨hsame, hkept, hexec, hres⟩ := excuteSql_spec hs hm
      obtain ⟨n, hfetched⟩ := displayRes_fetched (hkept.trans (Bool.not_eq_true _ ▸ hbroken))
      constructor
      · intro k heq
        rw [hfetched.res] at heq
        rw [hfetched.statement]
        exact hexec k heq
      · have hbefore : CallsCurrent m ↔ CallsCurrent s := by
          unfold CallsCurrent
          rw [hsame]
        rw [hfetched.current_iff, hres, hbefore]
        exact Iff.rfl

theorem new_executed (ok : Bool) : Executed (new ok) := by
  cases ok <;> exact nofun

theorem new_current (ok : Bool) : CallsCurrent (new ok) := by
  cases ok <;> exact nofun

/-- **When query results are current.** In every run of a handle: each `mysql_fetch_field` and
`mysql_fetch_row` of the display loop gets the result set that `mysql_store_result` returned for the
statement just executed, if and only if every statement of the run finds the connection open and is
answered with a result set. -/
theorem query_results_iff (ok : Bool) (acts : List Act) (s : Sql)
    (hrun : run step (new ok) acts = some s) :
    (∀ pre post m, acts = pre ++ post → run step (new ok) pre = some m → CallsCurrent m) ↔
      Meets step Answered (new ok) acts := by
  have hexec : ∀ pre m, run step (new ok) pre = some m → Executed m := fun pre m hm =>
    run_invariant_all (fun s a s' h hs => (step_spec h hs).1) (new_executed ok) hm
  have hstep : ∀ (s : Sql) (a : Act) (s' : Sql), Executed s ∧ CallsCurrent s → step s a = some s' →
      (Executed s' ∧ CallsCurrent s' ↔ Answered s a) := by
    intro s a s' ⟨hs, hcalls⟩ h
    obtain ⟨hs', hiff⟩ := step_spec hs h
    rw [and_iff_right hs', hiff, and_iff_right hcalls]
  rw [← run_invariant_iff hstep acts (new ok) s ⟨new_executed ok, new_current ok⟩ hrun]
  constructor
  · exact fun hall pre post m heq hm => ⟨hexec pre m hm, hall pre post m heq hm⟩
  · exact fun hall pre post m heq hm => (hall pre post m heq hm).2

/-- The table of the handler. -/
def student : CStr := ⟨ascii "student", by decide⟩

/-- Two statements that are answered with result sets. -/
theorem query_results_iff_answered :
    ∃ s, run step (new true) [.queryTable student (.resultSet 2 1),
        .queryTable student (.resultSet 2 0)] = some s ∧ CallsCurrent s := by
  obtain ⟨s, hrun⟩ : ∃ s, run step (new true) [.queryTable student (.resultSet 2 1),
      .queryTable student (.resultSet 2 0)] = some s := ⟨_, rfl⟩
  have hall := (query_results_iff true _ s hrun).mpr
    ⟨⟨rfl, 2, 1, rfl⟩, fun m hm => ⟨⟨by obtain rfl := Option.some.inj hm; rfl, 2, 0, rfl⟩,
      fun _ _ => trivial⟩⟩
  exact ⟨s, hrun, hall _ [] s (List.append_nil _).symm hrun⟩

/-- The second statement fails, and a row is fetched from the result set of the first. Without a
connection it is fetched through a null pointer, and after a statement without a result set through
an object that is none. -/
theorem query_result_not_current :
    (∃ s, run step (new true) [.queryTable student (.resultSet 2 1),
        .queryTable student .fails] = some s ∧ (Res.stored 1, 2) ∈ s.calls ∧ ¬ CallsCurrent s) ∧
    (∃ s, run step (new false) [.queryTable student .fails] = some s ∧
      (Res.null, 1) ∈ s.calls ∧ ¬ CallsCurrent s) ∧
    (∃ s, run step (new true) [.queryTable student (.noResult 0 0)] = some s ∧
      (Res.made, 1) ∈ s.calls ∧ ¬ CallsCurrent s) :=
  ⟨⟨_, rfl, by decide, by decide⟩, ⟨_, rfl, by decide, by decide⟩, ⟨_, rfl, by decide, by decide⟩⟩

end Mysql
end Mgx
