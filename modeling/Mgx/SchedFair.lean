import Mathlib
import Mgx.CoSleep

/-
  How long a coroutine waits for its turn.

  A call of `schedule` resumes at most one coroutine that sleeps, at most one that
  is ready, and those whose descriptors `epoll_wait` reports. A coroutine that
  yields goes to the back of the ready list, a new one too; one that goes to sleep
  comes into the sleep tree behind those with its deadline.

  Correspondence (C++ ↔ Lean), `misc/mgx_coroutine*.cpp`:
    the scheduler and the coroutines        ↔ `Sched`
    the part of a call of `schedule` about
      the sleep tree, about the ready list  ↔ `.schedule`, `.ready`

  Nothing is assumed of what the others do: they may yield for ever, make new
  coroutines, wait on descriptors or close them, and come to a failed assertion.

  What is proved: `ready_in_turn`. A ready coroutine with `n` before it is resumed
  by the (n+1)-th next call of `schedule`, and not sooner. `sleeper_in_turn`: the
  same for one whose deadline has passed, when the clock does not go back and
  nobody sleeps for a negative time.
-/
namespace Mgx
open Runs

/-- The invariant of the scheduler that every run keeps, the history of `msleep` left out. -/
def Sched.Sleeps (s : Sched) : Prop := ∃ calls, SleepSched.Inv ⟨s, calls⟩

theorem Sched.start_sleeps : Sched.start.Sleeps := ⟨[], SleepSched.start_inv⟩

theorem Sched.step_sleeps {s s' : Sched} {act : CoAct} (h : s.Sleeps) (hs : s.step act = some s') :
    s'.Sleeps := by
  obtain ⟨calls, hinv⟩ := h
  obtain ⟨calls', hstep⟩ : ∃ calls', SleepSched.step ⟨s, calls⟩ act = some ⟨s', calls'⟩ := by
    rw [SleepSched.step, hs, Option.map_some]
    exact ⟨_, rfl⟩
  exact ⟨calls', SleepSched.step_inv _ act _ hinv hstep⟩

section
variable {s s' : Sched} {act : CoAct} {c : Nat}

theorem Sched.Sleeps.ready (h : s.Sleeps) (hc : c ∈ s.readyList) : (s.co c).status = .ready := by
  obtain ⟨calls, hinv⟩ := h
  exact (hinv.ready c hc).2

theorem Sched.Sleeps.sleeping (h : s.Sleeps) {ms : Int} (hc : (ms, c) ∈ s.sleepTree) :
    (s.co c).status = .sleeping := by
  obtain ⟨calls, hinv⟩ := h
  have hmem : (ms, c) ∈ calls.map SleepCall.entry := hinv.tree.perm.mem_iff.mp hc
  obtain ⟨x, hx, hentry⟩ := List.mem_map.mp hmem
  exact (hinv.sleeping c).mpr (List.mem_map.mpr ⟨x, hx, congrArg Prod.snd hentry⟩)

/-- Who runs is in neither place. -/
theorem Sched.Sleeps.cur (h : s.Sleeps) (hc : s.cur = some c) : (s.co c).status = .running := by
  obtain ⟨calls, hinv⟩ := h
  exact hinv.cur c hc

theorem Sched.Sleeps.sorted (h : s.Sleeps) :
    s.sleepTree.Pairwise (fun e f => e.1 ≤ f.1) := by
  obtain ⟨calls, hinv⟩ := h
  exact hinv.tree.sorted

/-- The coroutines of the events to come wait. -/
theorem Sched.Sleeps.events (h : s.Sleeps) {evs : List CoEvent} (hphase : s.phase = .atEvents evs) :
    ∀ e ∈ evs, (s.co e.co).status = .waiting := by
  obtain ⟨calls, hinv⟩ := h
  exact (hinv.events evs hphase).2

/-! ## What a step does to the two places -/

theorem Sched.resume_readyList (s : Sched) (c : Nat) : (s.resume c).readyList = s.readyList := by
  unfold Sched.resume
  cases (s.co c).status with
  | ready => rfl
  | running => rfl
  | exited => rfl
  | sleeping => rfl
  | waiting =>
    simp only
    split
    · rfl
    · rfl

theorem Sched.resume_cur (s : Sched) (c : Nat) : (s.resume c).cur = some c := by
  unfold Sched.resume
  cases (s.co c).status with
  | ready => rfl
  | running => rfl
  | exited => rfl
  | sleeping => rfl
  | waiting =>
    simp only
    split
    · rfl
    · rfl

/-- A coroutine takes the first entry off the sleep tree exactly when it slept. -/
theorem Sched.resume_sleepTree (s : Sched) (c : Nat) : (s.resume c).sleepTree =
    if (s.co c).status = .sleeping then s.sleepTree.tail else s.sleepTree := by
  unfold Sched.resume
  cases (s.co c).status with
  | ready => rfl
  | running => rfl
  | exited => rfl
  | sleeping => rfl
  | waiting =>
    simp only
    split
    · rfl
    · rfl

/-- The first of the ready list leaves it and runs; nothing else takes anything off. -/
theorem Sched.step_readyList (hs : s.step act = some s') :
    if act = .ready then s'.readyList = s.readyList.tail ∧ ∀ c, s.readyList.head? = some c → s'.cur = some c
    else ∃ more, s'.readyList = s.readyList ++ more := by
  unfold Sched.step at hs
  split at hs
  case isTrue => cases hs
  case isFalse =>
  cases act with
  | schedule now =>
    simp only [Option.ite_none_right_eq_some, Option.some.injEq] at hs
    obtain ⟨-, rfl⟩ := hs
    refine ⟨[], ?_⟩
    unfold Sched.scheduleSleep
    split
    · simp
    · split
      · simp [Sched.resume_readyList]
      · simp
  | ready =>
    simp only [Option.ite_none_right_eq_some, Option.some.injEq] at hs
    obtain ⟨-, rfl⟩ := hs
    rw [if_pos rfl]
    unfold Sched.scheduleReady
    split
    next hlist => simp [hlist]
    next c rest hlist => simp [hlist, Sched.resume_readyList, Sched.resume_cur]
  | poll evs =>
    simp only [Option.ite_none_right_eq_some, Option.some.injEq] at hs
    obtain ⟨-, rfl⟩ := hs
    exact ⟨[], by simp⟩
  | event =>
    simp only at hs
    split at hs
    next evs hidle hphase =>
      obtain rfl := Option.some.inj hs
      refine ⟨[], ?_⟩
      cases evs with
      | nil => simp [Sched.scheduleEvent]
      | cons e rest =>
        rw [Sched.scheduleEvent]
        split
        · simp
        · simp [Sched.resume_readyList]
    next => cases hs
  | create =>
    simp only [Option.ite_none_right_eq_some, Option.some.injEq] at hs
    obtain ⟨-, rfl⟩ := hs
    exact ⟨[s.cnt], rfl⟩
  | close fd =>
    simp only [Option.ite_none_right_eq_some, Option.some.injEq] at hs
    obtain ⟨-, rfl⟩ := hs
    exact ⟨[], by simp⟩
  | yield =>
    obtain ⟨c, -, rfl⟩ := Option.map_eq_some_iff.mp hs
    exact ⟨[c], rfl⟩
  | msleep now ms =>
    obtain ⟨c, -, rfl⟩ := Option.map_eq_some_iff.mp hs
    exact ⟨[], by simp [Sched.suspend, Sched.setCo]⟩
  | wait fd =>
    obtain ⟨c, -, rfl⟩ := Option.map_eq_some_iff.mp hs
    refine ⟨[], ?_⟩
    split
    · simp [Sched.setCo]
    · simp [Sched.suspend, Sched.setCo]
  | exit =>
    obtain ⟨c, -, rfl⟩ := Option.map_eq_some_iff.mp hs
    exact ⟨[], by simp [Sched.suspend, Sched.setCo]⟩

/-- The first sleeper leaves the tree and runs when it is due; `msleep` puts an entry in; nothing
else touches the tree. -/
def Sched.TreeStep (s s' : Sched) : CoAct → Prop
  | .schedule now =>
    (s'.sleepTree = s.sleepTree ∧ ∀ e ∈ s.sleepTree.head?, now < e.1) ∨
      ∃ ms c, ms ≤ now ∧ s.sleepTree = (ms, c) :: s'.sleepTree ∧ s'.cur = some c
  | .msleep now ms => ∃ c, s'.sleepTree = insertSleep (now + ms) c s.sleepTree
  | .ready => s'.sleepTree = s.sleepTree
  | .poll _ => s'.sleepTree = s.sleepTree
  | .event => s'.sleepTree = s.sleepTree
  | .create => s'.sleepTree = s.sleepTree
  | .close _ => s'.sleepTree = s.sleepTree
  | .yield => s'.sleepTree = s.sleepTree
  | .wait _ => s'.sleepTree = s.sleepTree
  | .exit => s'.sleepTree = s.sleepTree

/-- The first sleeper leaves the tree and runs when it is due. -/
theorem Sched.Sleeps.scheduleSleep (h : s.Sleeps) (now : Int) :
    s.TreeStep (s.scheduleSleep now) (.schedule now) := by
  unfold Sched.scheduleSleep
  split
  next htree => exact Or.inl ⟨rfl, by simp [htree]⟩
  next ms c rest htree =>
    split
    next hdue =>
      have hsleeping : (s.co c).status = .sleeping := by
        apply h.sleeping
        rw [htree]
        exact List.mem_cons_self
      refine Or.inr ⟨ms, c, hdue, ?_, Sched.resume_cur _ _⟩
      rw [htree, Sched.resume_sleepTree]
      simp [hsleeping]
    next hlate =>
      refine Or.inl ⟨rfl, ?_⟩
      simp only [htree, List.head?_cons, Option.mem_def, Option.some.injEq]
      intro e he
      rw [← he]
      exact lt_of_not_ge hlate

/-- The first of the ready list is in no tree. -/
theorem Sched.Sleeps.scheduleReady (h : s.Sleeps) :
    s.scheduleReady.sleepTree = s.sleepTree := by
  unfold Sched.scheduleReady
  split
  next => rfl
  next c rest hlist =>
    have hready : (s.co c).status = .ready := by
      apply h.ready
      rw [hlist]
      exact List.mem_cons_self
    rw [Sched.resume_sleepTree]
    simp [hready]

/-- The coroutine of an event is in no tree. -/
theorem Sched.Sleeps.scheduleEvent (h : s.Sleeps) {evs : List CoEvent}
    (hphase : s.phase = .atEvents evs) : (s.scheduleEvent evs).sleepTree = s.sleepTree := by
  have hwaiting := h.events hphase
  cases evs with
  | nil => rfl
  | cons e rest =>
    have hstatus := hwaiting e List.mem_cons_self
    rw [Sched.scheduleEvent]
    split
    · rfl
    · rw [Sched.resume_sleepTree]
      simp [hstatus]

theorem Sched.step_sleepTree (h : s.Sleeps) (hs : s.step act = some s') : s.TreeStep s' act := by
  unfold Sched.step at hs
  split at hs
  case isTrue => cases hs
  case isFalse =>
  cases act with
  | schedule now =>
    simp only [Option.ite_none_right_eq_some, Option.some.injEq] at hs
    obtain ⟨-, rfl⟩ := hs
    exact h.scheduleSleep now
  | ready =>
    simp only [Option.ite_none_right_eq_some, Option.some.injEq] at hs
    obtain ⟨-, rfl⟩ := hs
    exact h.scheduleReady
  | poll evs =>
    simp only [Option.ite_none_right_eq_some, Option.some.injEq] at hs
    obtain ⟨-, rfl⟩ := hs
    rfl
  | event =>
    simp only at hs
    split at hs
    next evs hidle hphase =>
      obtain rfl := Option.some.inj hs
      exact h.scheduleEvent hphase
    next => cases hs
  | create =>
    simp only [Option.ite_none_right_eq_some, Option.some.injEq] at hs
    obtain ⟨-, rfl⟩ := hs
    rfl
  | close fd =>
    simp only [Option.ite_none_right_eq_some, Option.some.injEq] at hs
    obtain ⟨-, rfl⟩ := hs
    rfl
  | yield =>
    obtain ⟨c, -, rfl⟩ := Option.map_eq_some_iff.mp hs
    rfl
  | msleep now ms =>
    obtain ⟨c, -, rfl⟩ := Option.map_eq_some_iff.mp hs
    exact ⟨c, rfl⟩
  | wait fd =>
    obtain ⟨c, -, rfl⟩ := Option.map_eq_some_iff.mp hs
    split
    · exact rfl
    · exact rfl
  | exit =>
    obtain ⟨c, -, rfl⟩ := Option.map_eq_some_iff.mp hs
    rfl

/-- An entry comes behind those whose deadlines are not later. -/
theorem insertSleep_behind {ms : Int} {c : Nat} : ∀ {front : List (Int × Nat)} (rest : List (Int × Nat)),
    (∀ e ∈ front, e.1 ≤ ms) → insertSleep ms c (front ++ rest) = front ++ insertSleep ms c rest
  | [], _, _ => rfl
  | e :: front, rest, h => by
    have he : e.1 ≤ ms := h e List.mem_cons_self
    rw [List.cons_append, insertSleep, if_pos he,
      insertSleep_behind rest fun f hf => h f (List.mem_cons_of_mem e hf), List.cons_append]

end

/-! ## Taking turns -/

theorem drop_sub_succ {α : Type} {l : List α} {n : Nat} (hn : n + 1 ≤ l.length) :
    ∃ x, l.drop (l.length - (n + 1)) = x :: l.drop (l.length - n) := by
  have hlt : l.length - (n + 1) < l.length := by omega
  have hnext : l.length - (n + 1) + 1 = l.length - n := by omega
  exact ⟨l[l.length - (n + 1)], by rw [List.drop_eq_getElem_cons hlt, hnext]⟩

/-- `c` is ready, behind the last `n` of `pre`. -/
def Sched.ReadyBehind (pre : List Nat) (c : Nat) (n : Nat) (s : Sched) : Prop :=
  s.Sleeps ∧ n ≤ pre.length ∧ ∃ post, s.readyList = pre.drop (pre.length - n) ++ c :: post

theorem Sched.readyBehind_run {pre : List Nat} {c n : Nat} {more : List CoAct} {s s' : Sched}
    (h : s.ReadyBehind pre c (n + more.count .ready)) (hmore : run Sched.step s more = some s') :
    s'.ReadyBehind pre c n := by
  have hall : Meets Sched.step (fun _ _ => True) s more := meets_of_forall (fun _ _ => trivial) more s
  have hkind : ∀ n s a s', Sched.ReadyBehind pre c (n + 1) s → (a == CoAct.ready) = true → True →
      Sched.step s a = some s' → s'.ReadyBehind pre c n := by
    intro n s a s' ⟨hsleeps, hn, post, hlist⟩ ha _ hs
    obtain rfl : a = .ready := by simpa using ha
    have hstep := Sched.step_readyList hs
    rw [if_pos rfl] at hstep
    obtain ⟨x, hx⟩ := drop_sub_succ hn
    refine ⟨Sched.step_sleeps hsleeps hs, by omega, post, ?_⟩
    rw [hstep.1, hlist, hx]
    rfl
  have hother : ∀ n s a s', Sched.ReadyBehind pre c n s → (a == CoAct.ready) = false → True →
      Sched.step s a = some s' → s'.ReadyBehind pre c n := by
    intro n s a s' ⟨hsleeps, hn, post, hlist⟩ ha _ hs
    have hne : a ≠ .ready := by simpa using ha
    have hstep := Sched.step_readyList hs
    rw [if_neg hne] at hstep
    obtain ⟨new, hnew⟩ := hstep
    exact ⟨Sched.step_sleeps hsleeps hs, hn, post ++ new, by rw [hnew, hlist]; simp⟩
  exact run_countdown hkind hother more s s' n h hall hmore

/-- **The ready list is served in turn.** A coroutine that is ready with `pre` before it is resumed by
the first part about the ready list that comes after those for each of `pre`, and by none of these,
whatever the others do. -/
theorem ready_in_turn {acts more : List CoAct} {s s' : Sched} {pre post : List Nat} {c : Nat}
    (hrun : run Sched.step Sched.start acts = some s) (hready : s.readyList = pre ++ c :: post)
    (hmore : run Sched.step s more = some s') :
    (more.count .ready ≤ pre.length → s'.cur ≠ some c ∧
      ∃ post', s'.readyList = pre.drop (more.count .ready) ++ c :: post') ∧
    ∀ more', more = more' ++ [.ready] → more'.count .ready = pre.length → s'.cur = some c := by
  have hsleeps : s.Sleeps :=
    run_invariant_all (fun _ _ _ h hs => Sched.step_sleeps h hs) Sched.start_sleeps hrun
  have hbehind : s.ReadyBehind pre c pre.length := ⟨hsleeps, le_refl _, post, by simpa using hready⟩
  constructor
  · intro hcount
    have hsplit : pre.length - more.count .ready + more.count .ready = pre.length := by omega
    rw [← hsplit] at hbehind
    obtain ⟨hsleeps', -, post', hlist⟩ := Sched.readyBehind_run hbehind hmore
    have hdrop : pre.length - (pre.length - more.count .ready) = more.count .ready := by omega
    rw [hdrop] at hlist
    refine ⟨?_, post', hlist⟩
    intro hcur
    have hready' : (s'.co c).status = .ready := hsleeps'.ready (by rw [hlist]; simp)
    rw [hsleeps'.cur hcur] at hready'
    exact absurd hready' (by decide)
  · intro more' hmore' hcount
    subst hmore'
    obtain ⟨m, hm, hlast⟩ := run_append.mp hmore
    obtain ⟨s'', hstep, hend⟩ := run_cons.mp hlast
    obtain rfl : s'' = s' := Option.some.inj hend
    rw [← hcount, ← Nat.zero_add (more'.count .ready)] at hbehind
    obtain ⟨-, -, post', hlist⟩ := Sched.readyBehind_run hbehind hm
    simp only [Nat.sub_zero, List.drop_length, List.nil_append] at hlist
    have hserved := Sched.step_readyList hstep
    rw [if_pos rfl] at hserved
    exact hserved.2 c (by rw [hlist]; rfl)

/-- Coroutine 1 yields for ever; 2 has it before itself, and runs in the next call but one. -/
theorem ready_in_turn_second : ∃ s s', run Sched.step Sched.start [.create, .create, .create,
      .schedule 0, .ready, .yield, .poll [], .event] = some s ∧ s.readyList = [1, 2, 0] ∧
    run Sched.step s ([.schedule 1, .ready, .yield, .poll [], .event, .schedule 2] ++ [.ready])
      = some s' ∧ s'.cur = some 2 := by
  obtain ⟨s, s', hrun, hready, hmore⟩ : ∃ s s', run Sched.step Sched.start [.create, .create,
        .create, .schedule 0, .ready, .yield, .poll [], .event] = some s ∧
      s.readyList = [1] ++ 2 :: [0] ∧
      run Sched.step s ([.schedule 1, .ready, .yield, .poll [], .event, .schedule 2] ++ [.ready])
        = some s' := ⟨_, _, rfl, rfl, rfl⟩
  exact ⟨s, s', hrun, hready, hmore, (ready_in_turn hrun hready hmore).2 _ rfl rfl⟩

/-! ## Sleepers that are due -/

/-- The part of `schedule` about the sleep tree. -/
def CoAct.isSchedule : CoAct → Bool
  | .schedule _ => true
  | .ready => false
  | .poll _ => false
  | .event => false
  | .create => false
  | .close _ => false
  | .yield => false
  | .msleep .. => false
  | .wait _ => false
  | .exit => false

/-- The clock shows `d` or later when it is read, and nobody sleeps for a negative time. -/
def ClockPast (d : Int) : CoAct → Prop
  | .schedule now => d ≤ now
  | .msleep now ms => d ≤ now ∧ 0 ≤ ms
  | .ready => True
  | .poll _ => True
  | .event => True
  | .create => True
  | .close _ => True
  | .yield => True
  | .wait _ => True
  | .exit => True

/-- `c` sleeps to `d`, behind the last `n` of `pre`. -/
def Sched.SleepsBehind (pre : List (Int × Nat)) (d : Int) (c : Nat) (n : Nat) (s : Sched) : Prop :=
  s.Sleeps ∧ n ≤ pre.length ∧ ∃ post, s.sleepTree = pre.drop (pre.length - n) ++ (d, c) :: post

section
variable {pre : List (Int × Nat)} {d : Int} {c n : Nat} {s s' : Sched}

/-- Those before a sleeper have no later deadlines. -/
theorem Sched.SleepsBehind.front (h : s.SleepsBehind pre d c n) :
    ∀ e ∈ pre.drop (pre.length - n), e.1 ≤ d := by
  obtain ⟨hsleeps, -, post, htree⟩ := h
  have hsorted := hsleeps.sorted
  rw [htree, List.pairwise_append] at hsorted
  intro e he
  exact hsorted.2.2 e he (d, c) List.mem_cons_self

/-- When the deadline of `c` has passed, the part of `schedule` about the sleep tree resumes the first
of those before it, or `c` itself. -/
theorem Sched.SleepsBehind.schedule {now : Int} (h : s.SleepsBehind pre d c n) (hdue : d ≤ now)
    (hs : s.step (.schedule now) = some s') :
    (∀ k, n = k + 1 → s'.SleepsBehind pre d c k) ∧ (n = 0 → s'.cur = some c) := by
  have hfront := h.front
  obtain ⟨hsleeps, hn, post, htree⟩ := h
  have hstep : s.TreeStep s' (.schedule now) := Sched.step_sleepTree hsleeps hs
  rcases hstep with ⟨-, hlate⟩ | ⟨ms, x, -, hx, hcur⟩
  · -- the first entry is due
    exfalso
    have hhead : ∃ e, e ∈ s.sleepTree.head? ∧ e.1 ≤ d := by
      rw [htree]
      cases hlist : pre.drop (pre.length - n) with
      | nil => exact ⟨(d, c), by simp, le_refl d⟩
      | cons e rest => exact ⟨e, by simp, hfront e (by rw [hlist]; exact List.mem_cons_self)⟩
    obtain ⟨e, he, hed⟩ := hhead
    have hlate' := hlate e he
    omega
  · constructor
    · intro k hk
      subst hk
      obtain ⟨y, hy⟩ := drop_sub_succ hn
      refine ⟨Sched.step_sleeps hsleeps hs, by omega, post, ?_⟩
      rw [htree, hy, List.cons_append, List.cons.injEq] at hx
      exact hx.2.symm
    · intro hzero
      subst hzero
      simp only [Nat.sub_zero, List.drop_length, List.nil_append] at htree
      rw [htree, List.cons.injEq, Prod.mk.injEq] at hx
      rw [hcur, ← hx.1.2]

theorem Sched.sleepsBehind_other {a : CoAct} (h : s.SleepsBehind pre d c n)
    (ha : a.isSchedule = false) (hclock : ClockPast d a) (hs : s.step a = some s') :
    s'.SleepsBehind pre d c n := by
  have hfront := h.front
  obtain ⟨hsleeps, hn, post, htree⟩ := h
  have hstep := Sched.step_sleepTree hsleeps hs
  refine ⟨Sched.step_sleeps hsleeps hs, hn, ?_⟩
  cases a with
  | schedule now => cases ha
  | msleep now ms =>
    obtain ⟨x, hx⟩ := hstep
    obtain ⟨hnow, hms⟩ := hclock
    refine ⟨insertSleep (now + ms) x post, ?_⟩
    have hbefore : ∀ e ∈ pre.drop (pre.length - n) ++ [(d, c)], e.1 ≤ now + ms := by
      intro e he
      rcases List.mem_append.mp he with he | he
      · have hed := hfront e he
        omega
      · rw [List.mem_singleton.mp he]
        omega
    have hbehind := insertSleep_behind (c := x) post hbefore
    simp only [List.append_assoc, List.singleton_append] at hbehind
    rw [hx, htree, hbehind]
  | ready => exact ⟨post, htree ▸ hstep⟩
  | poll evs => exact ⟨post, htree ▸ hstep⟩
  | event => exact ⟨post, htree ▸ hstep⟩
  | create => exact ⟨post, htree ▸ hstep⟩
  | close fd => exact ⟨post, htree ▸ hstep⟩
  | yield => exact ⟨post, htree ▸ hstep⟩
  | wait fd => exact ⟨post, htree ▸ hstep⟩
  | exit => exact ⟨post, htree ▸ hstep⟩

theorem Sched.sleepsBehind_run {more : List CoAct}
    (h : s.SleepsBehind pre d c (n + more.countP CoAct.isSchedule))
    (hclock : ∀ a ∈ more, ClockPast d a) (hmore : run Sched.step s more = some s') :
    s'.SleepsBehind pre d c n := by
  have hok : Meets Sched.step (fun _ a => ClockPast d a ∧ True) s more :=
    Meets.and_mem hclock (meets_of_forall (fun _ _ => trivial) more s)
  apply run_countdown _ _ more s s' n h hok hmore
  · intro n s a s' h ha hok hs
    cases a with
    | schedule now => exact (h.schedule hok.1 hs).1 n rfl
    | ready => cases ha
    | poll evs => cases ha
    | event => cases ha
    | create => cases ha
    | close fd => cases ha
    | yield => cases ha
    | msleep now ms => cases ha
    | wait fd => cases ha
    | exit => cases ha
  · intro n s a s' h ha hok hs
    exact Sched.sleepsBehind_other h ha hok.1 hs

end

/-- **Sleepers that are due are woken in turn.** From the time on at which the deadline of a sleeping
coroutine has passed, with `pre` before it in the sleep tree, it is resumed by the first call of
`schedule` that comes after one for each of `pre`, and by none of these: nobody who goes to sleep
later overtakes it. -/
theorem sleeper_in_turn {acts more : List CoAct} {s s' : Sched} {pre post : List (Int × Nat)}
    {d : Int} {c : Nat} (hrun : run Sched.step Sched.start acts = some s)
    (hsleeps : s.sleepTree = pre ++ (d, c) :: post) (hmore : run Sched.step s more = some s')
    (hclock : ∀ a ∈ more, ClockPast d a) :
    (more.countP CoAct.isSchedule ≤ pre.length → s'.cur ≠ some c ∧
      ∃ post', s'.sleepTree = pre.drop (more.countP CoAct.isSchedule) ++ (d, c) :: post') ∧
    ∀ more' now, more = more' ++ [.schedule now] → more'.countP CoAct.isSchedule = pre.length →
      s'.cur = some c := by
  have hinv : s.Sleeps :=
    run_invariant_all (fun _ _ _ h hs => Sched.step_sleeps h hs) Sched.start_sleeps hrun
  have hbehind : s.SleepsBehind pre d c pre.length := ⟨hinv, le_refl _, post, by simpa using hsleeps⟩
  constructor
  · intro hcount
    have hsplit : pre.length - more.countP CoAct.isSchedule + more.countP CoAct.isSchedule
        = pre.length := by omega
    rw [← hsplit] at hbehind
    obtain ⟨hsleeps', -, post', htree⟩ := Sched.sleepsBehind_run hbehind hclock hmore
    have hdrop : pre.length - (pre.length - more.countP CoAct.isSchedule)
        = more.countP CoAct.isSchedule := by omega
    rw [hdrop] at htree
    refine ⟨?_, post', htree⟩
    intro hcur
    have hmem : (d, c) ∈ s'.sleepTree := by rw [htree]; simp
    have hsleeping : (s'.co c).status = .sleeping := hsleeps'.sleeping hmem
    rw [hsleeps'.cur hcur] at hsleeping
    exact absurd hsleeping (by decide)
  · intro more' now hmore' hcount
    subst hmore'
    obtain ⟨m, hm, hlast⟩ := run_append.mp hmore
    obtain ⟨s'', hstep, hend⟩ := run_cons.mp hlast
    obtain rfl : s'' = s' := Option.some.inj hend
    rw [← hcount, ← Nat.zero_add (more'.countP CoAct.isSchedule)] at hbehind
    have hm' := Sched.sleepsBehind_run hbehind
      (fun a ha => hclock a (List.mem_append_left _ ha)) hm
    have hdue : d ≤ now := hclock (.schedule now) (by simp)
    exact (hm'.schedule hdue hstep).2 rfl

/-- Coroutines 0 and 1 sleep to 20. At 25 one call wakes 0, which sleeps again; the next wakes 1. -/
theorem sleeper_in_turn_second : ∃ s s', run Sched.step Sched.start [.create, .create,
      .schedule 0, .ready, .msleep 0 20, .poll [], .event, .schedule 5, .ready, .msleep 5 15,
      .poll [], .event] = some s ∧ s.sleepTree = [(20, 0), (20, 1)] ∧
    run Sched.step s ([.schedule 25, .msleep 25 0, .ready, .poll [], .event] ++ [.schedule 26])
      = some s' ∧ s'.cur = some 1 := by
  obtain ⟨s, s', hrun, htree, hmore⟩ : ∃ s s', run Sched.step Sched.start [.create, .create,
        .schedule 0, .ready, .msleep 0 20, .poll [], .event, .schedule 5, .ready, .msleep 5 15,
        .poll [], .event] = some s ∧ s.sleepTree = [(20, 0)] ++ (20, 1) :: [] ∧
      run Sched.step s ([.schedule 25, .msleep 25 0, .ready, .poll [], .event] ++ [.schedule 26])
        = some s' := ⟨_, _, rfl, rfl, rfl⟩
  have hclock : ∀ a ∈ [CoAct.schedule 25, .msleep 25 0, .ready, .poll [], .event] ++ [.schedule 26],
      ClockPast 20 a := by
    intro a ha
    simp only [List.cons_append, List.nil_append, List.mem_cons, List.not_mem_nil, or_false] at ha
    rcases ha with rfl | rfl | rfl | rfl | rfl | rfl <;> simp [ClockPast]
  exact ⟨s, s', hrun, htree, hmore, (sleeper_in_turn hrun htree hmore hclock).2 _ 26 rfl rfl⟩

end Mgx
