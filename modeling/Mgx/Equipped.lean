import Mgx.Generation
import Mgx.HttpResponse

/-
  The database handle of a connection.

  `conn_pool_init` gives every connection it makes a handle, and `get_conn` gives
  none to the one it makes when the free queue is empty. The two are recycled
  alike, and every HTTP request uses the handle of its connection.

  Correspondence (C++ ↔ Lean):
    `c->sql`, under USE_REDIS `c->redis`, is non-null ↔ `Conn.sql`
    the query at the end of `th_msg_process_func`     ↔ `finish`, with the handle of
                                                        the connection (`Query.on`)
    `m_free_conns_cnt > 0` in `get_conn`              ↔ `FromQueue`

  What is proved: `every_conn_equipped_iff`. The handle is there whenever it is
  used exactly when no `get_conn` of the run finds the free queue empty.
-/
namespace Mgx
open Runs

/-- The query on the handle of a connection, where it has one. -/
def Query.on (q : Query) (sql : Bool) : Query :=
  { q with handle := if sql then q.handle else none }

/-- Every connection `get_conn` returns has its handle, and so has every connection in use when a
request of it is answered: with any handle on which the query returns, the request is answered. -/
def EveryEquipped (s₀ : GenSys) (ops : List PoolOp) : Prop :=
  (∀ pre sockFd now post, ops = pre ++ .getConn sockFd now :: post → ∀ m c p,
    run GenSys.step s₀ pre = some m → m.pool.getConn sockFd now = some (c, p) →
      (p.conn c).sql = true) ∧
  ∀ pre post, ops = pre ++ post → ∀ m, run GenSys.step s₀ pre = some m → ∀ c,
    m.live c = true → ∀ q : Query, q.Returns → ∀ res,
      finish (q.on (m.pool.conn c).sql) res = .respond res

/-- `get_conn` finds a connection in the free queue. -/
def FromQueue (s : GenSys) : PoolOp → Prop
  | .getConn .. => 0 < s.pool.freeConnsCnt
  | .insertRecyConnQueue .. => True
  | .freeConn .. => True
  | .closeConn .. => True
  | .recycle .. => True

/-! ## The handle of a connection does not change -/

theorem Pool.freeConn_sql (p : Pool) (c d : ConnId) :
    ((p.freeConn c).conn d).sql = (p.conn d).sql := by
  by_cases hd : d = c
  · subst hd
    show ((p.setConn d _).conn d).sql = _
    rw [Pool.setConn_self]
    rfl
  · rw [Pool.freeConn_other _ hd]

theorem Pool.insertRecy_sql (p : Pool) (c d : ConnId) (now : Int) :
    ((p.insertRecy c now).conn d).sql = (p.conn d).sql := by
  unfold Pool.insertRecy
  split
  · rfl
  · by_cases hd : d = c
    · subst hd
      show ((p.setConn d _).conn d).sql = _
      rw [Pool.setConn_self]
      rfl
    · show ((p.setConn c _).conn d).sql = _
      rw [Pool.setConn_other _ _ _ hd]

/-- A connection from the queue keeps its handle, and a new one has none. -/
theorem Pool.getConn_sql {p p' : Pool} {sockFd now : Int} {c : ConnId}
    (h : p.getConn sockFd now = some (c, p')) :
    (p'.conn c).sql = (decide (0 < p.freeConnsCnt) && (p.conn c).sql) := by
  obtain ⟨hpos, rest, -, rfl⟩ | ⟨hnone, -, rfl⟩ := Pool.getConn_cases h
  · show ((p.setConn c _).conn c).sql = _
    rw [Pool.setConn_self, decide_eq_true hpos]
    rfl
  · show ((p.setConn c _).conn c).sql = _
    rw [Pool.setConn_self, decide_eq_false (by omega)]
    rfl

/-! ## The invariant -/

/-- Every connection of the pool has its handle. -/
def Pool.Equipped (p : Pool) : Prop := ∀ c, c < p.pconnsQueue.length → (p.conn c).sql = true

/-- What the loop of `conn_pool_init` builds is equipped. -/
theorem initOne_foldl_equipped (nows : List Int) : ∀ {p : Pool}, p.Equipped →
    (nows.foldl Pool.initOne p).Equipped := by
  induction nows with
  | nil => exact fun h => h
  | cons now nows ih =>
    intro p h
    apply ih
    intro c hc
    have hlen : (p.initOne now).pconnsQueue.length = p.pconnsQueue.length + 1 := by
      show (p.pconnsQueue ++ [_]).length = _
      rw [List.length_append, List.length_singleton]
    rw [hlen] at hc
    show ((p.setConn p.pconnsQueue.length _).conn c).sql = true
    by_cases hnew : c = p.pconnsQueue.length
    · subst hnew
      rw [Pool.setConn_self]
      rfl
    · rw [Pool.setConn_other _ _ _ hnew]
      exact h c (by omega)

theorem connPoolInit_equipped (wait : Int) (nows : List Int) :
    (connPoolInit wait nows).Equipped :=
  initOne_foldl_equipped nows (p := Pool.empty wait) fun _ hc => absurd hc (Nat.not_lt_zero _)

/-- What `get_conn` takes from the queue of an equipped pool. -/
theorem Pool.Equipped.getConn {p p' : Pool} (h : p.Equipped) (hknown : p.Known)
    {sockFd now : Int} {c : ConnId} (hpos : 0 < p.freeConnsCnt)
    (hget : p.getConn sockFd now = some (c, p')) : (p'.conn c).sql = true ∧ p'.Equipped := by
  have hsql := Pool.getConn_sql hget
  obtain ⟨-, rest, hq, hp'⟩ | ⟨hnone, -⟩ := Pool.getConn_cases hget
  · have hc : c < p.pconnsQueue.length := hknown.free c (by rw [hq]; exact List.mem_cons_self ..)
    -- one of the connections of the pool, so it had its handle
    rw [decide_eq_true hpos, Bool.true_and, h c hc] at hsql
    refine ⟨hsql, fun d hd => ?_⟩
    by_cases hdc : d = c
    · rw [hdc, hsql]
    · rw [Pool.getConn_other hget hdc]
      exact h d (by rw [hp'] at hd; exact hd)
  · omega

/-- A step from the queue keeps the pool equipped. -/
theorem GenSys.step_equipped (s : GenSys) (op : PoolOp) (s' : GenSys)
    (h : s.Inv ∧ s.pool.Equipped) (hok : FromQueue s op) (hs : s.step op = some s') :
    s'.Inv ∧ s'.pool.Equipped := by
  obtain ⟨hinv, heq⟩ := h
  refine ⟨(step_effect hinv hs).1, ?_⟩
  cases op with
  | getConn sockFd now =>
    simp only [step, Option.map_eq_some_iff, Prod.exists] at hs
    obtain ⟨c, p, hget, rfl⟩ := hs
    exact (heq.getConn hinv.known hok hget).2
  | insertRecyConnQueue c now =>
    simp only [step, Option.ite_none_right_eq_some, Option.some.injEq] at hs
    obtain ⟨-, rfl⟩ := hs
    have hlen : (s.pool.insertRecy c now).pconnsQueue = s.pool.pconnsQueue := by
      unfold Pool.insertRecy
      split <;> rfl
    intro d hd
    rw [mark] at hd
    rw [hlen] at hd
    exact (s.pool.insertRecy_sql c d now).trans (heq d hd)
  | freeConn c =>
    simp only [step, Option.ite_none_right_eq_some, Option.some.injEq] at hs
    obtain ⟨-, rfl⟩ := hs
    exact fun d hd => (s.pool.freeConn_sql c d).trans (heq d hd)
  | closeConn c =>
    simp only [step, Option.ite_none_right_eq_some, Option.some.injEq] at hs
    obtain ⟨-, rfl⟩ := hs
    exact fun d hd => (s.pool.freeConn_sql c d).trans (heq d hd)
  | recycle c now =>
    simp only [step, Option.ite_none_right_eq_some, Option.some.injEq] at hs
    obtain ⟨-, rfl⟩ := hs
    exact fun d hd => (Pool.freeConn_sql _ c d).trans (heq d hd)

/-- The answer to a request faults without a handle, and only then for want of one. -/
theorem finish_on_iff {q : Query} (h : q.Returns) (sql : Bool) (res : HttpResponse) :
    finish (q.on sql) res = .respond res ↔ sql = true := by
  rw [finish_respond_iff, and_iff_left rfl]
  cases sql with
  | false => exact iff_of_false (fun ⟨_, hnone, _⟩ => nomatch hnone) Bool.noConfusion
  | true => exact iff_of_true h rfl

/-- **When every connection is equipped.** For any size of the pool and any operations, every
connection handed out has its handle, and every request of a connection in use finds it, if and only
if each `get_conn` takes its connection from the free queue. -/
theorem every_conn_equipped_iff (wait : Int) (nows : List Int) (ops : List PoolOp) :
    EveryEquipped (GenSys.start wait nows) ops ↔
      Meets GenSys.step FromQueue (GenSys.start wait nows) ops := by
  have hstart : (GenSys.start wait nows).Inv ∧ (GenSys.start wait nows).pool.Equipped :=
    ⟨GenSys.start_inv wait nows, connPoolInit_equipped wait nows⟩
  constructor
  · rintro ⟨hreturned, -⟩
    apply meets_of_prefixes
    intro pre op post heq m hm
    cases op with
    | getConn sockFd now =>
      by_contra hempty
      -- the queue is empty, so the connection is a new one
      have hnone : ¬ m.pool.freeConnsCnt > 0 := hempty
      have hget : m.pool.getConn sockFd now = some (m.pool.pconnsQueue.length, _) := if_neg hnone
      have hsql := hreturned pre sockFd now post heq m _ _ hm hget
      rw [Pool.getConn_sql hget, decide_eq_false hnone] at hsql
      cases hsql
    | insertRecyConnQueue c now => trivial
    | freeConn c => trivial
    | closeConn c => trivial
    | recycle c now => trivial
  · intro hmeets
    have hprefix : ∀ pre post m, ops = pre ++ post →
        run GenSys.step (GenSys.start wait nows) pre = some m →
        (m.Inv ∧ m.pool.Equipped) ∧ Meets GenSys.step FromQueue m post := by
      rintro pre post m rfl hm
      obtain ⟨hpre, hpost⟩ := meets_append hmeets hm
      exact ⟨run_invariant GenSys.step_equipped pre _ m hstart hpre hm, hpost⟩
    refine ⟨fun pre sockFd now post heq m c p hm hget => ?_,
      fun pre post heq m hm c hlive q hreturns res => ?_⟩
    · obtain ⟨⟨hinv, hequipped⟩, hpost⟩ := hprefix pre _ m heq hm
      exact (hequipped.getConn hinv.known hpost.1 hget).1
    · obtain ⟨⟨hinv, hequipped⟩, -⟩ := hprefix pre post m heq hm
      exact (finish_on_iff hreturns _ _).mpr (hequipped c (hinv.live c hlive))

/-- A pool of one connection and two clients: the second gets a connection without a handle. -/
theorem not_every_conn_equipped :
    ¬ EveryEquipped (GenSys.start 80 [0]) [.getConn 5 0, .getConn 6 0] := by
  intro h
  have hsql := h.1 [.getConn 5 0] 6 0 [] rfl _ 1 _ rfl rfl
  exact absurd hsql (by decide)

end Mgx
