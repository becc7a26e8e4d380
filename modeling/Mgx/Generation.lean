import Mgx.ConnPool

/-
  The generation test `pconn->m_cur_seq == cur_seq`.

  A message header or a timer entry captures `m_cur_seq` of its connection while
  the connection is in use, and the send thread, the package dispatcher and the
  heartbeat thread compare it later. The machine here takes the pool operations
  in any order and on any connections, also those that the callers should not
  make, and remembers how often a connection was closed or handed out. An operation
  is one step, and the test is made between two of them; `Mgx.Events` takes the
  `close` of a release and its `m_cur_seq++` apart.

  Correspondence (C++ ↔ Lean):
    a call of a pool operation             ↔ `PoolOp`, `GenSys.step`
    `pconn->m_cur_seq == cur_seq`          ↔ `seqEq`, on the two values of `Conn.curSeq`
    "closed or handed out since"           ↔ `GenSys.changes` has moved

  What is proved: `generation_check_iff`. Along a run the test is right, for every
  capture and every later time, exactly when no step of it closes a connection in
  use that is still in the recycle set, and none frees one that is in use.
  `insert_recy_conn_queue` closes the descriptor first and returns without
  `m_cur_seq++` when it finds the connection in the set.
-/
namespace Mgx
open Runs

/-- The operations on the pool, `recycle` being the branch of `recy_conn_th_func`. -/
inductive PoolOp where
  | getConn (sockFd now : Int)
  | insertRecyConnQueue (c : ConnId) (now : Int)
  | freeConn (c : ConnId)
  | closeConn (c : ConnId)
  | recycle (c : ConnId) (now : Int)

/-- The pool; whether a connection has been handed out and not closed since; how many times it has
been closed or handed out. -/
structure GenSys where
  pool : Pool
  live : ConnId → Bool
  changes : ConnId → Nat

/-- The connection is closed or handed out. -/
def GenSys.mark (s : GenSys) (p : Pool) (c : ConnId) (live : Bool) : GenSys where
  pool := p
  live := Function.update s.live c live
  changes := Function.update s.changes c (s.changes c + 1)

/-- One operation, on a connection of the pool. -/
def GenSys.step (s : GenSys) : PoolOp → Option GenSys
  | .getConn sockFd now => (s.pool.getConn sockFd now).map fun (c, p) => s.mark p c true
  | .insertRecyConnQueue c now =>
    if c ∈ s.pool.pconnsQueue then some (s.mark (s.pool.insertRecy c now) c false) else none
  | .freeConn c =>
    if c ∈ s.pool.pconnsQueue then some { s with pool := s.pool.freeConn c } else none
  | .closeConn c =>
    if c ∈ s.pool.pconnsQueue then some (s.mark (s.pool.freeConn c) c false) else none
  | .recycle c now =>
    if c ∈ s.pool.recySet ∧ s.pool.recyDue c now then some { s with pool := s.pool.recyConn c }
    else none

def GenSys.start (wait : Int) (nows : List Int) : GenSys :=
  ⟨connPoolInit wait nows, fun _ => false, fun _ => 0⟩

/-- `m_cur_seq` of a connection. -/
def GenSys.curSeq (s : GenSys) (c : ConnId) : Nat := (s.pool.conn c).curSeq

/-- For every capture while the connection is in use and every later time, the test says whether
the connection has been left alone in between. -/
def TestExact (s₀ : GenSys) (ops : List PoolOp) : Prop :=
  ∀ pre mid post, ops = pre ++ (mid ++ post) → ∀ m s, run GenSys.step s₀ pre = some m →
    run GenSys.step m mid = some s → ∀ c, m.live c = true →
      (seqEq (s.curSeq c) (m.curSeq c) = true ↔ s.changes c = m.changes c)

/-- A connection in use is not closed from within the recycle set, and is freed only by
`close_conn`. -/
def ReleaseOk (s : GenSys) : PoolOp → Prop
  | .insertRecyConnQueue c _ => s.live c = true → c ∉ s.pool.recySet
  | .freeConn c => s.live c = false
  | .recycle c _ => s.live c = false
  | .getConn .. => True
  | .closeConn _ => True

/-! ## What the operations do to a sequence number -/

theorem Pool.freeConn_curSeq (p : Pool) (c d : ConnId) :
    ((p.freeConn c).conn d).curSeq = (p.conn d).curSeq + if d = c then 1 else 0 := by
  by_cases hd : d = c
  · subst hd
    show ((p.setConn d _).conn d).curSeq = _
    rw [Pool.setConn_self, if_pos rfl]
    rfl
  · rw [Pool.freeConn_other _ hd, if_neg hd, Nat.add_zero]

theorem Pool.insertRecy_curSeq (p : Pool) (c d : ConnId) (now : Int) :
    ((p.insertRecy c now).conn d).curSeq =
      (p.conn d).curSeq + if d = c ∧ c ∉ p.recySet then 1 else 0 := by
  by_cases hc : c ∈ p.recySet
  · rw [if_neg (fun h => h.2 hc), Pool.insertRecy, if_pos hc, Nat.add_zero]
  · rw [Pool.insertRecy_of_notMem hc]
    show ((p.setConn c _).conn d).curSeq = _
    by_cases hd : d = c
    · subst hd
      rw [Pool.setConn_self, if_pos ⟨rfl, hc⟩]
      rfl
    · rw [Pool.setConn_other _ _ _ hd, if_neg (fun h => hd h.1), Nat.add_zero]

/-- `get_conn` bumps the number of what it hands out, unless that object is new. -/
theorem Pool.getConn_curSeq {p p' : Pool} {sockFd now : Int} {c d : ConnId}
    (h : p.getConn sockFd now = some (c, p')) (hd : d ≠ p.pconnsQueue.length) :
    (p'.conn d).curSeq = (p.conn d).curSeq + if d = c then 1 else 0 := by
  by_cases hc : d = c
  · subst hc
    obtain ⟨-, rest, -, rfl⟩ | ⟨-, hnew, -⟩ := Pool.getConn_cases h
    · show ((p.setConn d _).conn d).curSeq = _
      rw [Pool.setConn_self, if_pos rfl]
      rfl
    · exact absurd hnew hd
  · rw [Pool.getConn_other h hc, if_neg hc, Nat.add_zero]

/-! ## What a step does to one connection -/

/-- The pool's addresses are the first ones, and the containers hold no others. -/
structure Pool.Known (p : Pool) : Prop where
  queue : p.pconnsQueue = List.range p.pconnsQueue.length
  free : ∀ c ∈ p.freeQueue, c < p.pconnsQueue.length
  recy : ∀ c ∈ p.recySet, c < p.pconnsQueue.length

theorem Pool.Known.lt {p : Pool} (h : p.Known) {c : ConnId} (hc : c ∈ p.pconnsQueue) :
    c < p.pconnsQueue.length := by
  rw [h.queue] at hc
  exact List.mem_range.mp hc

theorem Pool.Known.getConn {p p' : Pool} (h : p.Known) {sockFd now : Int} {c : ConnId}
    (hget : p.getConn sockFd now = some (c, p')) :
    p'.Known ∧ c < p'.pconnsQueue.length ∧ p.pconnsQueue.length ≤ p'.pconnsQueue.length := by
  obtain ⟨-, rest, hq, rfl⟩ | ⟨-, hnew, rfl⟩ := Pool.getConn_cases hget
  · have hc : c < p.pconnsQueue.length := h.free c (by rw [hq]; exact List.mem_cons_self ..)
    refine ⟨⟨h.queue, fun d hd => h.free d ?_, h.recy⟩, hc, Nat.le_refl _⟩
    rw [hq]
    exact List.mem_cons_of_mem _ hd
  · have hlen : (p.pconnsQueue ++ [c]).length = p.pconnsQueue.length + 1 := by simp
    have hq : p.pconnsQueue ++ [c] = List.range (p.pconnsQueue.length + 1) := by
      rw [List.range_succ, ← h.queue, hnew]
    refine ⟨⟨by rw [hlen]; exact hq, fun d hd => ?_, fun d hd => ?_⟩, ?_, ?_⟩
    · show d < (p.pconnsQueue ++ [c]).length
      rw [hlen]
      exact Nat.lt_succ_of_lt (h.free d hd)
    · show d < (p.pconnsQueue ++ [c]).length
      rw [hlen]
      exact Nat.lt_succ_of_lt (h.recy d hd)
    · show c < (p.pconnsQueue ++ [c]).length
      rw [hlen]
      exact Nat.lt_succ_of_le (Nat.le_of_eq hnew)
    · show p.pconnsQueue.length ≤ (p.pconnsQueue ++ [c]).length
      omega

theorem Pool.Known.freeConn {p : Pool} (h : p.Known) {c : ConnId} (hc : c < p.pconnsQueue.length) :
    (p.freeConn c).Known := by
  refine ⟨h.queue, fun d hd => ?_, h.recy⟩
  rcases List.mem_append.mp hd with hd | hd
  · exact h.free d hd
  · obtain rfl := List.mem_singleton.mp hd
    exact hc

theorem Pool.Known.insertRecy {p : Pool} (h : p.Known) {c : ConnId} (now : Int)
    (hc : c < p.pconnsQueue.length) : (p.insertRecy c now).Known := by
  unfold Pool.insertRecy
  split
  · exact h
  · refine ⟨h.queue, h.free, fun d hd => ?_⟩
    rcases List.mem_cons.mp hd with rfl | hd
    · exact hc
    · exact h.recy d hd

theorem Pool.Known.recyConn {p : Pool} (h : p.Known) {c : ConnId} (hc : c ∈ p.recySet) :
    (p.recyConn c).Known :=
  Pool.Known.freeConn (p := { p with
      recySet := p.recySet.erase c
      totalRecyConnsCnt := p.totalRecyConnsCnt - 1 })
    ⟨h.queue, h.free, fun d hd => h.recy d (List.mem_of_mem_erase hd)⟩ (h.recy c hc)

theorem connPoolInit_known (wait : Int) (nows : List Int) : (connPoolInit wait nows).Known := by
  have hinv := start_inv wait nows
  obtain ⟨hq, hf, hr, -⟩ := initOne_foldl nows (p := Pool.empty wait) (n := 0) rfl rfl
  refine ⟨hinv.queue, fun c hc => ?_, fun c hc => ?_⟩
  · have hc' : c ∈ (nows.foldl Pool.initOne (Pool.empty wait)).freeQueue := hc
    show c < (nows.foldl Pool.initOne (Pool.empty wait)).pconnsQueue.length
    rw [hf] at hc'
    rw [hq, List.length_range]
    exact List.mem_range.mp hc'
  · have hc' : c ∈ (nows.foldl Pool.initOne (Pool.empty wait)).recySet := hc
    rw [hr] at hc'
    cases hc'

/-- Only connections of the pool are in use. -/
structure GenSys.Inv (s : GenSys) : Prop where
  known : s.pool.Known
  live : ∀ c, s.live c = true → c < s.pool.pconnsQueue.length

theorem GenSys.mark_at (s : GenSys) (p : Pool) (c : ConnId) (b : Bool) :
    (s.mark p c b).live c = b ∧ (s.mark p c b).changes c = s.changes c + 1 :=
  ⟨Function.update_self .., Function.update_self ..⟩

theorem GenSys.mark_other (s : GenSys) (p : Pool) {c d : ConnId} (b : Bool) (h : d ≠ c) :
    (s.mark p c b).live d = s.live d ∧ (s.mark p c b).changes d = s.changes d :=
  ⟨Function.update_of_ne h .., Function.update_of_ne h ..⟩

theorem GenSys.Inv.mark {s : GenSys} (h : s.Inv) {p : Pool} {c : ConnId} (b : Bool)
    (hp : p.Known) (hlen : s.pool.pconnsQueue.length ≤ p.pconnsQueue.length)
    (hc : c < p.pconnsQueue.length) : (s.mark p c b).Inv := by
  refine ⟨hp, fun d hd => ?_⟩
  by_cases hdc : d = c
  · subst hdc; exact hc
  · rw [(s.mark_other p b hdc).1] at hd
    exact Nat.lt_of_lt_of_le (h.live d hd) hlen

/-- How a step may change connection `d`. -/
inductive Effect (s : GenSys) (a : PoolOp) (s' : GenSys) (d : ConnId) : Prop where
  /-- it is left alone -/
  | none (hseq : s'.curSeq d = s.curSeq d) (hchanges : s'.changes d = s.changes d)
      (hlive : s'.live d = s.live d)
  /-- it is closed or handed out, and its number goes up -/
  | marked (hseq : s'.curSeq d = s.curSeq d + 1) (hchanges : s'.changes d = s.changes d + 1)
  /-- it is freed without being closed -/
  | freed (hseq : s'.curSeq d = s.curSeq d + 1) (hchanges : s'.changes d = s.changes d)
      (hok : ReleaseOk s a → s.live d = false)
  /-- it is closed while in the recycle set, and its number stays -/
  | skipped (hseq : s'.curSeq d = s.curSeq d) (hchanges : s'.changes d = s.changes d + 1)
      (hok : ReleaseOk s a → s.live d = false)

/-- Connection `c` is marked, and its number, and no other, goes up by one. -/
theorem Effect.of_mark {s : GenSys} {a : PoolOp} {p : Pool} {c d : ConnId} {b : Bool}
    (h : (p.conn d).curSeq = (s.pool.conn d).curSeq + if d = c then 1 else 0) :
    Effect s a (s.mark p c b) d := by
  by_cases hd : d = c
  · subst hd
    rw [if_pos rfl] at h
    exact .marked h (s.mark_at p d b).2
  · rw [if_neg hd] at h
    exact .none h (s.mark_other p b hd).2 (s.mark_other p b hd).1

/-- Connection `c` is freed and not marked. -/
theorem Effect.of_free {s : GenSys} {a : PoolOp} {p : Pool} {c d : ConnId}
    (h : (p.conn d).curSeq = (s.pool.conn d).curSeq + if d = c then 1 else 0)
    (hok : ReleaseOk s a → s.live c = false) : Effect s a { s with pool := p } d := by
  by_cases hd : d = c
  · subst hd
    rw [if_pos rfl] at h
    exact .freed h rfl hok
  · rw [if_neg hd] at h
    exact .none h rfl rfl

/-- Every step keeps the invariant, and changes a connection in one of four ways. -/
theorem GenSys.step_effect {s s' : GenSys} {a : PoolOp} (h : s.Inv) (hs : s.step a = some s') :
    s'.Inv ∧ s.pool.pconnsQueue.length ≤ s'.pool.pconnsQueue.length ∧
      ∀ d, d < s.pool.pconnsQueue.length → Effect s a s' d := by
  cases a with
  | getConn sockFd now =>
    simp only [GenSys.step, Option.map_eq_some_iff, Prod.exists] at hs
    obtain ⟨c, p, hget, rfl⟩ := hs
    obtain ⟨hknown, hc, hlen⟩ := h.known.getConn hget
    refine ⟨h.mark true hknown hlen hc, hlen, fun d hd => Effect.of_mark ?_⟩
    exact Pool.getConn_curSeq hget (Nat.ne_of_lt hd)
  | insertRecyConnQueue c now =>
    simp only [GenSys.step, Option.ite_none_right_eq_some, Option.some.injEq] at hs
    obtain ⟨hc, rfl⟩ := hs
    have hc := h.known.lt hc
    have hlen : (s.pool.insertRecy c now).pconnsQueue = s.pool.pconnsQueue := by
      unfold Pool.insertRecy
      split <;> rfl
    refine ⟨h.mark false (h.known.insertRecy now hc) (by rw [hlen]) (by rw [hlen]; exact hc),
      by show _ ≤ (s.pool.insertRecy c now).pconnsQueue.length; rw [hlen], fun d _ => ?_⟩
    have hseq := s.pool.insertRecy_curSeq c d now
    by_cases hset : c ∈ s.pool.recySet
    · -- already in the set: the number stays
      by_cases hd : d = c
      · subst hd
        rw [if_neg (fun h => h.2 hset)] at hseq
        refine .skipped hseq (s.mark_at _ d false).2 fun hok => ?_
        exact Bool.eq_false_iff.mpr fun hl => hok hl hset
      · rw [if_neg (fun h => hd h.1)] at hseq
        exact .none hseq (s.mark_other _ false hd).2 (s.mark_other _ false hd).1
    · apply Effect.of_mark
      simpa only [hset, not_false_eq_true, and_true] using hseq
  | freeConn c =>
    simp only [GenSys.step, Option.ite_none_right_eq_some, Option.some.injEq] at hs
    obtain ⟨hc, rfl⟩ := hs
    refine ⟨⟨h.known.freeConn (h.known.lt hc), h.live⟩, Nat.le_refl _, fun d _ => ?_⟩
    exact Effect.of_free (s.pool.freeConn_curSeq c d) id
  | closeConn c =>
    simp only [GenSys.step, Option.ite_none_right_eq_some, Option.some.injEq] at hs
    obtain ⟨hc, rfl⟩ := hs
    have hc := h.known.lt hc
    refine ⟨h.mark false (h.known.freeConn hc) (Nat.le_refl _) hc, Nat.le_refl _, fun d _ => ?_⟩
    exact Effect.of_mark (s.pool.freeConn_curSeq c d)
  | recycle c now =>
    simp only [GenSys.step, Option.ite_none_right_eq_some, Option.some.injEq] at hs
    obtain ⟨⟨hc, -⟩, rfl⟩ := hs
    refine ⟨⟨h.known.recyConn hc, h.live⟩, Nat.le_refl _, fun d _ => ?_⟩
    exact Effect.of_free (Pool.freeConn_curSeq _ c d) id

/-! ## The test -/

/-- Since state `m`, either the connection has been left alone, or it has been closed or handed out
and its number has gone up. -/
def Since (m s : GenSys) (c : ConnId) : Prop :=
  (s.live c = true ∧ s.curSeq c = m.curSeq c ∧ s.changes c = m.changes c) ∨
    (m.curSeq c < s.curSeq c ∧ m.changes c < s.changes c)

/-- A step that meets the condition keeps `Since`. -/
theorem Since.step {m s s' : GenSys} {a : PoolOp} {c : ConnId} (h : Since m s c)
    (he : Effect s a s' c) (hok : ReleaseOk s a) : Since m s' c := by
  rcases h with ⟨hlive, hseq, hchanges⟩ | ⟨hseq, hchanges⟩
  · cases he with
    | none h1 h2 h3 => exact .inl ⟨by rw [h3, hlive], by rw [h1, hseq], by rw [h2, hchanges]⟩
    | marked h1 h2 => exact .inr ⟨by omega, by omega⟩
    | freed h1 h2 h3 => rw [h3 hok] at hlive; simp at hlive
    | skipped h1 h2 h3 => rw [h3 hok] at hlive; simp at hlive
  · -- neither the number nor the count ever goes down
    have hmono : s.curSeq c ≤ s'.curSeq c ∧ s.changes c ≤ s'.changes c := by
      cases he with
      | none h1 h2 h3 => omega
      | marked h1 h2 => omega
      | freed h1 h2 h3 => omega
      | skipped h1 h2 h3 => omega
    exact .inr ⟨by omega, by omega⟩

/-- The numbers only grow along a run. -/
theorem run_curSeq_le {ops : List PoolOp} : ∀ {m s : GenSys}, m.Inv →
    run GenSys.step m ops = some s → s.Inv ∧
      ∀ c, c < m.pool.pconnsQueue.length →
        c < s.pool.pconnsQueue.length ∧ m.curSeq c ≤ s.curSeq c := by
  induction ops with
  | nil =>
    intro m s hm hr
    simp only [run_nil, Option.some.injEq] at hr
    subst hr
    exact ⟨hm, fun c hc => ⟨hc, Nat.le_refl _⟩⟩
  | cons a ops ih =>
    intro m s hm hr
    obtain ⟨n, ha, hr⟩ := run_cons.mp hr
    obtain ⟨hn, hlen, heff⟩ := GenSys.step_effect hm ha
    obtain ⟨hs, hle⟩ := ih hn hr
    refine ⟨hs, fun c hc => ?_⟩
    have hstep : m.curSeq c ≤ n.curSeq c := by
      cases heff c hc with
      | none h1 h2 h3 => omega
      | marked h1 h2 => omega
      | freed h1 h2 h3 => omega
      | skipped h1 h2 h3 => omega
    obtain ⟨hc', hle⟩ := hle c (Nat.lt_of_lt_of_le hc hlen)
    exact ⟨hc', Nat.le_trans hstep hle⟩

theorem GenSys.start_inv (wait : Int) (nows : List Int) : (GenSys.start wait nows).Inv :=
  ⟨connPoolInit_known wait nows, fun _ hlive => by simp [GenSys.start] at hlive⟩

/-- One step that breaks the condition makes the test wrong for the connection it releases. -/
theorem step_breaks {m s : GenSys} {a : PoolOp} (hs : m.step a = some s)
    (hbad : ¬ ReleaseOk m a) : ∃ c, m.live c = true ∧
      ¬ (seqEq (s.curSeq c) (m.curSeq c) = true ↔ s.changes c = m.changes c) := by
  cases a with
  | getConn sockFd now => exact absurd trivial hbad
  | closeConn c => exact absurd trivial hbad
  | insertRecyConnQueue c now =>
    simp only [ReleaseOk, Classical.not_imp, not_not] at hbad
    obtain ⟨hlive, hset⟩ := hbad
    refine ⟨c, hlive, fun hiff => ?_⟩
    simp only [GenSys.step, Option.ite_none_right_eq_some, Option.some.injEq] at hs
    obtain ⟨-, rfl⟩ := hs
    have hseq : (m.mark (m.pool.insertRecy c now) c false).curSeq c = m.curSeq c := by
      have := m.pool.insertRecy_curSeq c c now
      rwa [if_neg (fun hboth => hboth.2 hset)] at this
    rw [hseq, (m.mark_at _ c false).2] at hiff
    have := hiff.mp (seqEq_self _)
    omega
  | freeConn c =>
    refine ⟨c, by simpa [ReleaseOk] using hbad, fun hiff => ?_⟩
    simp only [GenSys.step, Option.ite_none_right_eq_some, Option.some.injEq] at hs
    obtain ⟨-, rfl⟩ := hs
    have hseq := m.pool.freeConn_curSeq c c
    rw [if_pos rfl] at hseq
    have := hiff.mpr rfl
    simp only [seqEq, GenSys.curSeq, hseq, beq_iff_eq] at this
    omega
  | recycle c now =>
    refine ⟨c, by simpa [ReleaseOk] using hbad, fun hiff => ?_⟩
    simp only [GenSys.step, Option.ite_none_right_eq_some, Option.some.injEq] at hs
    obtain ⟨-, rfl⟩ := hs
    have hseq : ((m.pool.recyConn c).conn c).curSeq = (m.pool.conn c).curSeq + 1 := by
      have := Pool.freeConn_curSeq { m.pool with
        recySet := m.pool.recySet.erase c
        totalRecyConnsCnt := m.pool.totalRecyConnsCnt - 1 } c c
      rwa [if_pos rfl] at this
    have := hiff.mpr rfl
    simp only [seqEq, GenSys.curSeq, hseq, beq_iff_eq] at this
    omega

/-- **When the generation test is right.** In a run with fewer than 2^64 increments of one
connection's number, the test tells for every capture and every later time whether the connection
has been left alone, if and only if no step closes a connection in use that is in the recycle set or
frees a connection in use. -/
theorem generation_check_iff (wait : Int) (nows : List Int) (ops : List PoolOp) (s : GenSys)
    (hrun : run GenSys.step (GenSys.start wait nows) ops = some s)
    (hwrap : ∀ c ∈ s.pool.pconnsQueue, s.curSeq c < 2 ^ 64) :
    TestExact (GenSys.start wait nows) ops ↔
      Meets GenSys.step ReleaseOk (GenSys.start wait nows) ops := by
  have hstart := GenSys.start_inv wait nows
  constructor
  · intro hexact
    apply meets_of_prefixes
    intro pre a post heq m hm
    by_contra hbad
    rw [heq, run_append] at hrun
    obtain ⟨m', hm', hrest⟩ := hrun
    obtain rfl : m = m' := Option.some.inj (hm.symm.trans hm')
    obtain ⟨n, hn, -⟩ := run_cons.mp hrest
    obtain ⟨c, hlive, hwrong⟩ := step_breaks hn hbad
    apply hwrong
    exact hexact pre [a] post heq m n hm (run_cons.mpr ⟨n, hn, rfl⟩) c hlive
  · intro hmeets pre mid post heq m x hm hx c hlive
    subst heq
    obtain ⟨m', hm', hrest⟩ := run_append.mp hrun
    obtain rfl : m = m' := Option.some.inj (hm.symm.trans hm')
    obtain ⟨x', hx', hlast⟩ := run_append.mp hrest
    obtain rfl : x = x' := Option.some.inj (hx.symm.trans hx')
    have hminv := (run_curSeq_le hstart hm).1
    have hxinv := (run_curSeq_le hminv hx).1
    have hc := hminv.live c hlive
    have hmid := (meets_append (meets_append hmeets hm).2 hx).1
    -- along `mid`: the connection stays allocated, and `Since` holds
    have hkeep : ∀ y a y', (y.Inv ∧ c < y.pool.pconnsQueue.length ∧ Since m y c) →
        ReleaseOk y a → y.step a = some y' →
        y'.Inv ∧ c < y'.pool.pconnsQueue.length ∧ Since m y' c := by
      rintro y a y' ⟨hy, hcy, hsy⟩ hok hstep
      obtain ⟨hy', hlen, heff⟩ := GenSys.step_effect hy hstep
      exact ⟨hy', Nat.lt_of_lt_of_le hcy hlen, hsy.step (heff c hcy) hok⟩
    obtain ⟨-, hcx, hsince⟩ :=
      run_invariant hkeep mid m x ⟨hminv, hc, .inl ⟨hlive, rfl, rfl⟩⟩ hmid hx
    obtain ⟨hsinv, hle⟩ := run_curSeq_le hxinv hlast
    obtain ⟨hcs, hxs⟩ := hle c hcx
    have hbound : s.curSeq c < 2 ^ 64 := by
      apply hwrap
      rw [hsinv.known.queue]
      exact List.mem_range.mpr hcs
    rcases hsince with ⟨-, hseq, hchanges⟩ | ⟨hseq, hchanges⟩
    · rw [hseq]
      exact ⟨fun _ => hchanges, fun _ => seqEq_self _⟩
    · rw [seqEq_iff (by omega) (by omega)]
      omega

/-- The one connection of the pool serves a client until the peer shuts down; a handler that still
has an event for it gets `EBADF` and closes it as well; it is handed out again, and that client
shuts down too. -/
def doubleRelease : List PoolOp :=
  [.getConn 5 0, .insertRecyConnQueue 0 10, .closeConn 0, .getConn 5 11,
    .insertRecyConnQueue 0 12]

def doubleReleased : GenSys :=
  (run GenSys.step (GenSys.start 80 [0]) doubleRelease).getD (GenSys.start 80 [])

theorem generation_check_doubleRelease :
    TestExact (GenSys.start 80 [0]) doubleRelease ↔
      Meets GenSys.step ReleaseOk (GenSys.start 80 [0]) doubleRelease :=
  generation_check_iff 80 [0] doubleRelease doubleReleased rfl (by decide)

/-- The second shutdown closes the descriptor and finds the connection in the recycle set: a header
captured for that client still passes the test. -/
theorem generation_check_fails : ¬ TestExact (GenSys.start 80 [0]) doubleRelease := by
  intro h
  have hpass := h [.getConn 5 0, .insertRecyConnQueue 0 10, .closeConn 0, .getConn 5 11]
    [.insertRecyConnQueue 0 12] [] rfl _ _ rfl rfl 0 rfl
  have htest := hpass.mp (by decide)
  exact absurd htest (by decide)

end Mgx
