import Mgx.ConnPool

/-
  A sweep of the recycler.

  Every 200 ms `recy_conn_th_func` goes through `m_recy_conn_set` with an iterator.
  A connection that is due is taken out of the set and freed, and `erase` returns the
  next position; for one that is not due the turn leaves the iterator where it is,
  and the loop comes back to the same connection with the next reading of the clock.

  Correspondence (C++ ↔ Lean), `net/mgx_socket_conn.cpp`:
    `it`                                              ↔ `RecySweep.it`, what is left to visit
    a turn of `while (it != m_recy_conn_set.end())`   ↔ `RecySweep.turn`

  The order of the set is a parameter, and the clock has one reading a turn. Insertions
  by other threads while the sweep goes on are left out.

  What is proved: `recy_sweep_iff`. A sweep ends within as many turns as the set has
  elements exactly when every connection is due at the turn that first comes to it.
  `recy_sweep_blocked` says what happens otherwise.
-/
namespace Mgx
open Runs

/-- The pool in the middle of a sweep, and what the iterator has not passed. -/
structure RecySweep where
  pool : Pool
  it : List ConnId

/-- A turn of the loop, with what `time(nullptr)` returns; `none` at the end of the set. -/
def RecySweep.turn (s : RecySweep) (curTime : Int) : Option RecySweep :=
  match s.it with
  | [] => none
  | pconn :: rest =>
    if s.pool.recyDue pconn curTime then some ⟨s.pool.recyConn pconn, rest⟩
    -- nothing moves `it`
    else some s

/-- A connection that is freed: out of the set, in the queue, and without a descriptor. -/
def Pool.Freed (p : Pool) (c : ConnId) : Prop :=
  c ∉ p.recySet ∧ c ∈ p.freeQueue ∧ (p.conn c).fd = -1

/-- A sweep in this order, with these readings of the clock, ends within as many turns as there are
connections, and those that were due at its start have been removed and freed. -/
def Pool.SweepEnds (p : Pool) (order : List ConnId) (clock : Nat → Int) : Prop :=
  ∃ turns s, turns ≤ order.length ∧
    run RecySweep.turn ⟨p, order⟩ ((List.range turns).map clock) = some s ∧ s.it = [] ∧
    ∀ c ∈ order, p.recyDue c (clock 0) → s.pool.Freed c

/-! ## Freeing one connection -/

section
variable (p : Pool) (c : ConnId)

@[simp] theorem Pool.recyConn_recySet : (p.recyConn c).recySet = p.recySet.erase c := rfl
@[simp] theorem Pool.recyConn_freeQueue : (p.recyConn c).freeQueue = p.freeQueue ++ [c] := rfl

/-- It is due no earlier and no later for the others, nor for itself. -/
theorem Pool.recyDue_recyConn (d : ConnId) (now : Int) :
    (p.recyConn c).recyDue d now ↔ p.recyDue d now := by
  have htime : ((p.recyConn c).conn d).inRecyTime = (p.conn d).inRecyTime := by
    show (Function.update p.conn c (p.conn c).putOneToFree d).inRecyTime = (p.conn d).inRecyTime
    by_cases hd : d = c
    · subst hd
      rw [Function.update_self]
      rfl
    · rw [Function.update_of_ne hd]
  unfold recyDue
  rw [htime]
  exact Iff.rfl

theorem Pool.recyConn_fd {d : ConnId} (hd : d = c ∨ (p.conn d).fd = -1) :
    ((p.recyConn c).conn d).fd = -1 := by
  show (Function.update p.conn c (p.conn c).putOneToFree d).fd = -1
  by_cases hdc : d = c
  · subst hdc
    rw [Function.update_self]
    rfl
  · rw [Function.update_of_ne hdc]
    exact hd.resolve_left hdc

end

theorem Pool.freed_recyConn {p : Pool} (hset : p.recySet.Nodup) (c : ConnId) :
    (p.recyConn c).Freed c :=
  ⟨fun hc => (hset.mem_erase_iff.mp hc).1 rfl, by simp, p.recyConn_fd c (.inl rfl)⟩

theorem Pool.Freed.recyConn {p : Pool} {c : ConnId} (h : p.Freed c) (d : ConnId) :
    (p.recyConn d).Freed c :=
  ⟨fun hc => h.1 (List.mem_of_mem_erase hc), by simp [h.2.1], p.recyConn_fd d (.inr h.2.2)⟩

/-! ## One turn -/

section
variable {s s' : RecySweep} {now : Int}

/-- A turn frees the connection at the iterator, which is due, or changes nothing. -/
theorem RecySweep.turn_cases (h : s.turn now = some s') : ∃ c rest, s.it = c :: rest ∧
    (s.pool.recyDue c now ∧ s' = ⟨s.pool.recyConn c, rest⟩ ∨ ¬ s.pool.recyDue c now ∧ s' = s) := by
  unfold turn at h
  split at h
  · cases h
  next c rest hit =>
  refine ⟨c, rest, hit, ?_⟩
  split at h
  next hdue => exact .inl ⟨hdue, (Option.some.inj h).symm⟩
  next hdue => exact .inr ⟨hdue, (Option.some.inj h).symm⟩

theorem RecySweep.turn_due {c : ConnId} {rest : List ConnId} (hit : s.it = c :: rest)
    (hdue : s.pool.recyDue c now) : s.turn now = some ⟨s.pool.recyConn c, rest⟩ := by
  unfold turn
  rw [hit]
  exact if_pos hdue

/-- The iterator passes one connection a turn at most. -/
theorem RecySweep.turn_length (h : s.turn now = some s') : s.it.length ≤ s'.it.length + 1 := by
  obtain ⟨c, rest, hit, ⟨-, rfl⟩ | ⟨-, rfl⟩⟩ := turn_cases h
  · rw [hit, List.length_cons]
  · exact Nat.le_succ _

end

/-! ## The sweep -/

theorem RecySweep.run_length : ∀ {readings : List Int} {s s' : RecySweep},
    run RecySweep.turn s readings = some s' → s.it.length ≤ s'.it.length + readings.length := by
  intro readings
  induction readings with
  | nil =>
    intro s s' h
    obtain rfl := Option.some.inj h
    exact Nat.le_refl _
  | cons now readings ih =>
    intro s s' h
    obtain ⟨m, hturn, hrun⟩ := run_cons.mp h
    have hone := turn_length hturn
    have hrest := ih hrun
    rw [List.length_cons]
    omega

/-- A sweep with no more turns than connections passes one each turn, so each was due. -/
theorem RecySweep.due_of_run : ∀ {readings : List Int} {s s' : RecySweep},
    run RecySweep.turn s readings = some s' → s'.it = [] → readings.length ≤ s.it.length →
    List.Forall₂ s.pool.recyDue s.it readings := by
  intro readings
  induction readings with
  | nil =>
    intro s s' h hend _
    obtain rfl := Option.some.inj h
    rw [hend]
    exact .nil
  | cons now readings ih =>
    intro s s' h hend hlen
    obtain ⟨m, hturn, hrun⟩ := run_cons.mp h
    have hpassed := run_length hrun
    rw [hend, List.length_nil, Nat.zero_add] at hpassed
    obtain ⟨c, rest, hit, ⟨hdue, rfl⟩ | ⟨-, rfl⟩⟩ := turn_cases hturn
    · rw [hit, List.length_cons, List.length_cons] at hlen
      rw [hit]
      refine .cons hdue ((ih hrun hend (by simpa using hlen)).imp fun d now hd => ?_)
      exact (s.pool.recyDue_recyConn c d now).mp hd
    · -- a turn that passes none is one too many
      rw [List.length_cons] at hlen
      omega

/-- When every connection is due at its turn, the sweep frees them all. -/
theorem RecySweep.run_of_due : ∀ {readings : List Int} {s : RecySweep},
    List.Forall₂ s.pool.recyDue s.it readings → s.pool.recySet.Nodup →
    ∃ s', run RecySweep.turn s readings = some s' ∧ s'.it = [] ∧
      (∀ c ∈ s.it, s'.pool.Freed c) ∧ ∀ c, s.pool.Freed c → s'.pool.Freed c := by
  intro readings
  induction readings with
  | nil =>
    intro s hdue _
    have hit : s.it = [] := List.forall₂_nil_right_iff.mp hdue
    refine ⟨s, rfl, hit, fun c hc => ?_, fun _ h => h⟩
    rw [hit] at hc
    cases hc
  | cons now readings ih =>
    intro s hdue hset
    obtain ⟨c, rest, hc, hrest, hit⟩ := List.forall₂_cons_right_iff.mp hdue
    have hrest' : List.Forall₂ (s.pool.recyConn c).recyDue rest readings :=
      hrest.imp fun d now hd => (s.pool.recyDue_recyConn c d now).mpr hd
    obtain ⟨s', hrun, hend, hfreed, hkept⟩ := ih (s := ⟨s.pool.recyConn c, rest⟩) hrest'
      (hset.erase c)
    refine ⟨s', run_cons.mpr ⟨_, turn_due hit hc, hrun⟩, hend, fun d hd => ?_,
      fun d hd => hkept d (hd.recyConn c)⟩
    rw [hit] at hd
    rcases List.mem_cons.mp hd with rfl | hd
    · exact hkept d (Pool.freed_recyConn hset d)
    · exact hfreed d hd

/-- A connection that is never due holds the iterator, in front of all that come behind it. -/
theorem RecySweep.run_blocked {c : ConnId} : ∀ {readings : List Int} {s s' : RecySweep}
    {front behind : List ConnId}, s.it = front ++ c :: behind →
    (∀ now ∈ readings, ¬ s.pool.recyDue c now) → run RecySweep.turn s readings = some s' →
    ∃ front', s'.it = front' ++ c :: behind := by
  intro readings
  induction readings with
  | nil =>
    intro s s' front behind hit _ h
    obtain rfl := Option.some.inj h
    exact ⟨front, hit⟩
  | cons now readings ih =>
    intro s s' front behind hit hnot h
    obtain ⟨m, hturn, hrun⟩ := run_cons.mp h
    have hnot' : ∀ now ∈ readings, ¬ s.pool.recyDue c now :=
      fun now hnow => hnot now (List.mem_cons_of_mem _ hnow)
    obtain ⟨d, rest, hd, ⟨hdue, rfl⟩ | ⟨-, rfl⟩⟩ := turn_cases hturn
    · cases front with
      | nil =>
        -- it is not `c` that was due
        obtain ⟨rfl, -⟩ := List.cons.inj (hd.symm.trans hit)
        exact absurd hdue (hnot now List.mem_cons_self)
      | cons x front =>
        obtain ⟨rfl, hrest⟩ := List.cons.inj (hd.symm.trans hit)
        refine ih (s := ⟨s.pool.recyConn d, rest⟩) hrest (fun now hnow hdue => ?_) hrun
        exact hnot' now hnow ((s.pool.recyDue_recyConn d c now).mp hdue)
    · exact ih hit hnot' hrun

/-- **When a sweep of the recycler ends.** For every content and order of the set and all readings
of the clock: within as many turns as there are connections, and with all that were due at the start
freed, exactly when each connection is due at the turn with its number. -/
theorem recy_sweep_iff (p : Pool) (order : List ConnId) (hset : order.Nodup)
    (horder : order.Perm p.recySet) (clock : Nat → Int) :
    p.SweepEnds order clock ↔ ∀ i (hi : i < order.length), p.recyDue order[i] (clock i) := by
  have hforall : List.Forall₂ p.recyDue order ((List.range order.length).map clock) ↔
      ∀ i (hi : i < order.length), p.recyDue order[i] (clock i) := by
    rw [List.forall₂_iff_get]
    simp only [List.length_map, List.length_range, true_and, List.get_eq_getElem, List.getElem_map,
      List.getElem_range]
    exact ⟨fun h i hi => h i hi hi, fun h i hi _ => h i hi⟩
  rw [← hforall]
  constructor
  · rintro ⟨turns, s, hturns, hrun, hend, -⟩
    have hpassed := RecySweep.run_length hrun
    rw [hend, List.length_nil, List.length_map, List.length_range, Nat.zero_add] at hpassed
    obtain rfl : turns = order.length := le_antisymm hturns hpassed
    exact RecySweep.due_of_run hrun hend (by simp)
  · intro hdue
    obtain ⟨s, hrun, hend, hfreed, -⟩ := RecySweep.run_of_due (s := ⟨p, order⟩) hdue
      (horder.nodup_iff.mp hset)
    exact ⟨order.length, s, Nat.le_refl _, hrun, hend, fun c hc _ => hfreed c hc⟩

/-- A connection of the set that is not due at any reading of a clock: the sweep never ends, and all
that come behind the connection wait with it. -/
theorem recy_sweep_blocked (p : Pool) (front behind : List ConnId) (c : ConnId) (clock : Nat → Int)
    (hnot : ∀ i, ¬ p.recyDue c (clock i)) (turns : Nat) (s : RecySweep)
    (hrun : run RecySweep.turn ⟨p, front ++ c :: behind⟩ ((List.range turns).map clock) = some s) :
    ∃ front', s.it = front' ++ c :: behind := by
  refine RecySweep.run_blocked (s := ⟨p, front ++ c :: behind⟩) rfl (fun now hnow => ?_) hrun
  obtain ⟨i, -, rfl⟩ := List.mem_map.mp hnow
  exact hnot i

/-- Two connections in the recycle set, put in at these times; the waiting time is a minute. -/
def twoInRecy (first second : Int) : Pool :=
  { Pool.empty 60 with
    conn := fun c => { Conn.new with inRecyTime := if c = 0 then first else second }
    recySet := [0, 1]
    totalRecyConnsCnt := 2 }

/-- Both are due from the start. -/
theorem recy_sweep_iff_two : (twoInRecy 0 1).SweepEnds [1, 0] (fun i => 61 + i) :=
  (recy_sweep_iff (twoInRecy 0 1) [1, 0] (by decide) (by decide) fun i => 61 + i).mpr (by decide)

/-- The first has waited its minute; the other, which comes first in the order, has not, and the clock
stands still: the sweep does not end, and the first is not freed. -/
theorem recy_sweep_stuck :
    (twoInRecy 0 60).recyDue 0 61 ∧ ¬ (twoInRecy 0 60).SweepEnds [1, 0] (fun _ => 61) := by
  refine ⟨by decide, ?_⟩
  rintro ⟨turns, s, -, hrun, hend, -⟩
  obtain ⟨front, hit⟩ := recy_sweep_blocked (twoInRecy 0 60) [] [0] 1 (fun _ => 61)
    (fun _ => by decide) turns s hrun
  rw [hend] at hit
  simp at hit

end Mgx
