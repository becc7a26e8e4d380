import Mgx.TimerDrain
import Mgx.Lib.CMem

/-
  The cached size and the cached head of the timer queue.

  The heartbeat thread never looks into the multimap to see whether there is work:
  it looks at `m_timer_que_size` and `m_timer_que_head_time`, which the three
  operations keep by hand. The size is an `std::atomic<int>`, which wraps around.

  Correspondence (C++ ↔ Lean), `net/mgx_socket_time.cpp`:
    the three operations, with the counter that wraps around
                                       ↔ `TimerQueue.addToTimerQueueInt`,
                                         `TimerQueue.deleteFromTimerQueueInt`,
                                         `TimerQueue.getOverTimeTimerInt`
    calls of them                      ↔ `TimerAct`
    one call, with the waiting time of
      the configuration                ↔ `TimerQueue.stepInt`

  What is proved: `timer_queue_bookkeeping_iff`. In every sequence of calls no call
  looks at the first entry of an empty queue; and after each of them the size is the
  number of entries and the head is the least key, exactly as long as the queue has
  never had 2^31 entries. Until then the counter is the one the other modules have
  (`TimerQueue.step_of_stepInt`).
-/
namespace Mgx
open Runs CMem

/-- A call, with what `time(nullptr)` returns in it or the time it is given. -/
inductive TimerAct where
  | add (now : Int) (h : MsgHdr)
  | delete (c : ConnId)
  | getOver (curTime : Int)

/-- One call as the other modules have it, with a counter that does not wrap around; `none` where
`begin()` of an empty queue is dereferenced. -/
def TimerQueue.step (wait : Int) (t : TimerQueue) : TimerAct → Option TimerQueue
  | .add now h => t.addToTimerQueue wait now h
  | .delete c => t.deleteFromTimerQueue c
  | .getOver curTime => (t.getOverTimeTimer wait curTime).map Prod.snd

/-! ## The counter as it is -/

/-- `add_to_timer_queue`. -/
def TimerQueue.addToTimerQueueInt (t : TimerQueue) (wait now : Int) (h : MsgHdr) :
    Option TimerQueue :=
  let queue := emplace t.queue (now + wait) h
  (earliestTime queue).map fun e => ⟨queue, Int.bmod (t.size + 1) (2 ^ 32), e⟩

/-- The loop of `delete_from_timer_queue`. -/
def TimerQueue.eraseEntryInt (t : TimerQueue) (c : ConnId) : TimerQueue :=
  { t with
    queue := Mgx.deleteFromTimerQueue t.queue c
    size := if t.queue.any (·.2.pconn == c) then Int.bmod (t.size - 1) (2 ^ 32) else t.size }

/-- `delete_from_timer_queue`. -/
def TimerQueue.deleteFromTimerQueueInt (t : TimerQueue) (c : ConnId) : Option TimerQueue :=
  let t := t.eraseEntryInt c
  if t.size > 0 then (earliestTime t.queue).map fun e => { t with headTime := e } else some t

/-- `get_over_time_timer`. -/
def TimerQueue.getOverTimeTimerInt (t : TimerQueue) (wait curTime : Int) :
    Option (Option MsgHdr × TimerQueue) :=
  if t.size = 0 then some (none, t)
  else match t.queue with
    | [] => none
    | (e, h) :: rest =>
      if curTime < e then some (none, t)
      else
        let queue := emplace rest (curTime + wait) h
        (earliestTime queue).map fun e' =>
          (some h, ⟨queue, Int.bmod (Int.bmod (t.size - 1) (2 ^ 32) + 1) (2 ^ 32), e'⟩)

/-- One call. -/
def TimerQueue.stepInt (wait : Int) (t : TimerQueue) : TimerAct → Option TimerQueue
  | .add now h => t.addToTimerQueueInt wait now h
  | .delete c => t.deleteFromTimerQueueInt c
  | .getOver curTime => (t.getOverTimeTimerInt wait curTime).map Prod.snd

/-- The size is the number of entries, the least key is the head. -/
def TimerQueue.Bookkept (t : TimerQueue) : Prop :=
  t.size = t.queue.length ∧ 0 ≤ t.size ∧
    (t.queue ≠ [] → (∃ h, (t.headTime, h) ∈ t.queue) ∧ ∀ e ∈ t.queue, t.headTime ≤ e.1)

/-! ## The counter that does not wrap around -/

/-- The queue is a queue, and what is cached is right. -/
structure TimerQueue.Cached (t : TimerQueue) : Prop where
  holds : ∃ ins, t.Holds ins
  head : ∀ e ∈ t.queue.head?, t.headTime = e.1

theorem TimerQueue.empty_cached : TimerQueue.empty.Cached := ⟨⟨[], empty_holds⟩, nofun⟩

section
variable {t : TimerQueue} {wait now : Int}

/-- The first key of a queue with an entry. -/
theorem earliestTime_of_ne_nil {queue : List (Int × MsgHdr)} (hne : queue ≠ []) :
    ∃ e rest, queue = e :: rest ∧ earliestTime queue = some e.1 := by
  obtain ⟨e, rest, rfl⟩ := List.exists_cons_of_ne_nil hne
  exact ⟨e, rest, rfl, rfl⟩

theorem emplace_ne_nil (queue : List (Int × MsgHdr)) (time : Int) (h : MsgHdr) :
    emplace queue time h ≠ [] := by
  simp [emplace]

/-- The first key of a queue that is not empty is cached. -/
theorem head_of_earliestTime {queue : List (Int × MsgHdr)} {size headTime : Int}
    (hearliest : earliestTime queue = some headTime) :
    ∀ e ∈ (TimerQueue.mk queue size headTime).queue.head?, headTime = e.1 := by
  intro e he
  have hfirst : queue.head? = some e := he
  rw [earliestTime, hfirst] at hearliest
  exact (Option.some.inj hearliest).symm

theorem TimerQueue.Cached.add (h : t.Cached) (hdr : MsgHdr) :
    ∃ t', t.addToTimerQueue wait now hdr = some t' ∧ t'.Cached := by
  obtain ⟨ins, hins⟩ := h.holds
  obtain ⟨e, rest, -, hearliest⟩ := earliestTime_of_ne_nil (emplace_ne_nil t.queue (now + wait) hdr)
  have hadd : t.addToTimerQueue wait now hdr =
      some ⟨emplace t.queue (now + wait) hdr, t.size + 1, e.1⟩ := by
    simp only [TimerQueue.addToTimerQueue, hearliest, Option.map_some]
  exact ⟨_, hadd, ⟨_, hins.add hadd⟩, head_of_earliestTime hearliest⟩

theorem TimerQueue.Cached.delete (h : t.Cached) (c : ConnId) :
    ∃ t', t.deleteFromTimerQueue c = some t' ∧ t'.Cached := by
  obtain ⟨ins, hins⟩ := h.holds
  have herase := hins.eraseEntry c
  by_cases hpos : (t.eraseEntry c).size > 0
  · have hne : (t.eraseEntry c).queue ≠ [] := by
      intro hnil
      rw [herase.size, hnil] at hpos
      cases hpos
    obtain ⟨e, rest, -, hearliest⟩ := earliestTime_of_ne_nil hne
    have hdel : t.deleteFromTimerQueue c = some { t.eraseEntry c with headTime := e.1 } := by
      simp only [TimerQueue.deleteFromTimerQueue, if_pos hpos, hearliest, Option.map_some]
    exact ⟨_, hdel, hins.delete hdel, head_of_earliestTime hearliest⟩
  · have hdel : t.deleteFromTimerQueue c = some (t.eraseEntry c) := if_neg hpos
    refine ⟨_, hdel, hins.delete hdel, fun e he => ?_⟩
    -- the queue is empty
    have hlength := herase.size
    have hmem := List.length_pos_of_mem (List.mem_of_mem_head? he)
    omega

theorem TimerQueue.Cached.getOver (h : t.Cached) :
    ∃ r t', t.getOverTimeTimer wait now = some (r, t') ∧ t'.Cached := by
  obtain ⟨ins, hins⟩ := h.holds
  unfold TimerQueue.getOverTimeTimer
  by_cases hzero : t.size = 0
  · exact ⟨none, t, if_pos hzero, h⟩
  rw [if_neg hzero]
  cases hqueue : t.queue with
  | nil => exact absurd (by rw [hins.size, hqueue]; rfl) hzero
  | cons e rest =>
    by_cases hlater : now < e.1
    · exact ⟨none, t, if_pos hlater, h⟩
    obtain ⟨e', rest', -, hearliest⟩ :=
      earliestTime_of_ne_nil (emplace_ne_nil rest (now + wait) e.2)
    refine ⟨some e.2, ⟨emplace rest (now + wait) e.2, t.size - 1 + 1, e'.1⟩, ?_, ⟨?_, ?_⟩⟩
    · simp only [if_neg hlater, hearliest, Option.map_some]
    · have hrest : Multimap.Holds Prod.fst rest rest := by
        have hsorted := hins.queue.sorted
        rw [hqueue] at hsorted
        exact .of_sorted (List.pairwise_cons.mp hsorted).2
      refine ⟨_, hrest.emplace (now + wait, e.2), ?_⟩
      have hlength := hins.size
      rw [hqueue, List.length_cons] at hlength
      show t.size - 1 + 1 = ((emplace rest (now + wait) e.2).length : Int)
      rw [emplace_length]
      omega
    · exact head_of_earliestTime hearliest

end

/-- Every call keeps what is cached right, and is defined. -/
theorem TimerQueue.step_cached {wait : Int} (t : TimerQueue) (act : TimerAct) (h : t.Cached) :
    ∃ t', t.step wait act = some t' ∧ t'.Cached := by
  cases act with
  | add now hdr => exact h.add hdr
  | delete c => exact h.delete c
  | getOver curTime =>
    obtain ⟨r, t', hget, h'⟩ := h.getOver
    exact ⟨t', congrArg (Option.map Prod.snd) hget, h'⟩

theorem TimerQueue.Cached.bookkept {t : TimerQueue} (h : t.Cached) : t.Bookkept := by
  obtain ⟨ins, hins⟩ := h.holds
  have hsize := hins.size
  refine ⟨hsize, by omega, fun hne => ?_⟩
  obtain ⟨e, rest, hqueue⟩ := List.exists_cons_of_ne_nil hne
  have hhead : t.headTime = e.1 := h.head e (by rw [hqueue]; rfl)
  have hsorted := hins.queue.sorted
  rw [hqueue] at hsorted ⊢
  refine ⟨⟨e.2, by rw [hhead]; exact List.mem_cons_self⟩, fun x hx => ?_⟩
  rw [hhead]
  rcases List.mem_cons.mp hx with rfl | hx
  · exact Int.le_refl _
  · exact (List.pairwise_cons.mp hsorted).1 x hx

/-! ## The counter modulo 2^32 -/

/-- The counter is the number of entries as far as an `int` can tell. -/
def TimerQueue.Counted (t : TimerQueue) : Prop := t.size = Int.bmod t.queue.length (2 ^ 32)

theorem TimerQueue.empty_counted : TimerQueue.empty.Counted := Int.zero_bmod.symm

section
variable {t : TimerQueue} {wait now : Int}

theorem TimerQueue.Counted.ne_nil (h : t.Counted) (hne : t.size ≠ 0) : t.queue ≠ [] := by
  intro hnil
  apply hne
  rw [h, hnil]
  rfl

theorem TimerQueue.Counted.addInt (h : t.Counted) (hdr : MsgHdr) :
    ∃ t', t.addToTimerQueueInt wait now hdr = some t' ∧ t'.Counted ∧
      t'.queue.length = t.queue.length + 1 := by
  obtain ⟨e, rest, -, hearliest⟩ := earliestTime_of_ne_nil (emplace_ne_nil t.queue (now + wait) hdr)
  have hlength := emplace_length t.queue (now + wait) hdr
  refine ⟨⟨emplace t.queue (now + wait) hdr, Int.bmod (t.size + 1) (2 ^ 32), e.1⟩, ?_, ?_, hlength⟩
  · simp only [TimerQueue.addToTimerQueueInt, hearliest, Option.map_some]
  · show Int.bmod (t.size + 1) (2 ^ 32) =
      Int.bmod (emplace t.queue (now + wait) hdr).length (2 ^ 32)
    rw [hlength, h, Int.bmod_add_bmod]
    rfl

theorem TimerQueue.Counted.eraseEntryInt (h : t.Counted) (c : ConnId) :
    (t.eraseEntryInt c).Counted := by
  show (if t.queue.any (·.2.pconn == c) then Int.bmod (t.size - 1) (2 ^ 32) else t.size) =
    Int.bmod (t.queue.eraseP (·.2.pconn == c)).length (2 ^ 32)
  rw [List.length_eraseP, h]
  split
  · next hany =>
    obtain ⟨e, he, -⟩ := List.any_eq_true.mp hany
    have hpos := List.length_pos_of_mem he
    rw [Int.bmod_sub_bmod, Int.ofNat_sub hpos]
    rfl
  · rfl

theorem TimerQueue.Counted.deleteInt (h : t.Counted) (c : ConnId) :
    ∃ t', t.deleteFromTimerQueueInt c = some t' ∧ t'.Counted := by
  have herase := h.eraseEntryInt c
  by_cases hpos : (t.eraseEntryInt c).size > 0
  · obtain ⟨e, rest, -, hearliest⟩ := earliestTime_of_ne_nil (herase.ne_nil (by omega))
    refine ⟨{ t.eraseEntryInt c with headTime := e.1 }, ?_, herase⟩
    simp only [TimerQueue.deleteFromTimerQueueInt, if_pos hpos, hearliest, Option.map_some]
  · exact ⟨_, if_neg hpos, herase⟩

theorem TimerQueue.Counted.getOverInt (h : t.Counted) :
    ∃ r t', t.getOverTimeTimerInt wait now = some (r, t') ∧ t'.Counted := by
  unfold TimerQueue.getOverTimeTimerInt
  by_cases hzero : t.size = 0
  · exact ⟨none, t, if_pos hzero, h⟩
  rw [if_neg hzero]
  cases hqueue : t.queue with
  | nil => exact absurd hqueue (h.ne_nil hzero)
  | cons e rest =>
    by_cases hlater : now < e.1
    · exact ⟨none, t, if_pos hlater, h⟩
    obtain ⟨e', rest', -, hearliest⟩ :=
      earliestTime_of_ne_nil (emplace_ne_nil rest (now + wait) e.2)
    refine ⟨some e.2, ⟨emplace rest (now + wait) e.2,
      Int.bmod (Int.bmod (t.size - 1) (2 ^ 32) + 1) (2 ^ 32), e'.1⟩, ?_, ?_⟩
    · simp only [if_neg hlater, hearliest, Option.map_some]
    · show Int.bmod (Int.bmod (t.size - 1) (2 ^ 32) + 1) (2 ^ 32) =
        Int.bmod (emplace rest (now + wait) e.2).length (2 ^ 32)
      rw [Int.bmod_add_bmod, Int.sub_add_cancel, h, Int.bmod_bmod, hqueue, emplace_length]
      rfl

end

/-- Every call is defined, however many entries there are. -/
theorem TimerQueue.stepInt_counted (wait : Int) (t : TimerQueue) (act : TimerAct)
    (h : t.Counted) : ∃ t', t.stepInt wait act = some t' ∧ t'.Counted := by
  cases act with
  | add now hdr =>
    obtain ⟨t', hadd, hcounted, -⟩ := h.addInt hdr
    exact ⟨t', hadd, hcounted⟩
  | delete c => exact h.deleteInt c
  | getOver curTime =>
    obtain ⟨r, t', hget, hcounted⟩ := h.getOverInt
    exact ⟨t', congrArg (Option.map Prod.snd) hget, hcounted⟩

/-- A counter of fewer than 2^31 entries does not wrap around. -/
theorem TimerQueue.step_of_stepInt {wait : Int} {t t' : TimerQueue} {act : TimerAct}
    (hsize : t.size = t.queue.length) (hbefore : t.queue.length < 2 ^ 31)
    (hs : t.stepInt wait act = some t') (hafter : t'.queue.length < 2 ^ 31) :
    t.step wait act = some t' := by
  cases act with
  | add now hdr =>
    obtain ⟨e, hearliest, rfl⟩ := Option.map_eq_some_iff.mp hs
    have hlength : (emplace t.queue (now + wait) hdr).length < 2 ^ 31 := hafter
    rw [emplace_length] at hlength
    have hfits : Int.bmod (t.size + 1) (2 ^ 32) = t.size + 1 :=
      bmod_eq_of_fits (by omega) (by omega)
    rw [hfits]
    exact Option.map_eq_some_iff.mpr ⟨e, hearliest, rfl⟩
  | delete c =>
    have herase : t.eraseEntryInt c = t.eraseEntry c := by
      have hfits : Int.bmod (t.size - 1) (2 ^ 32) = t.size - 1 :=
        bmod_eq_of_fits (by omega) (by omega)
      rw [eraseEntryInt, eraseEntry, hfits]
    rw [stepInt, deleteFromTimerQueueInt, herase] at hs
    exact hs
  | getOver curTime =>
    have hfits : Int.bmod (Int.bmod (t.size - 1) (2 ^ 32) + 1) (2 ^ 32) = t.size - 1 + 1 := by
      rw [Int.bmod_add_bmod]
      exact bmod_eq_of_fits (by omega) (by omega)
    rw [stepInt, getOverTimeTimerInt, hfits] at hs
    exact hs

theorem TimerQueue.Cached.stepInt {wait : Int} {t t' : TimerQueue} {act : TimerAct} (h : t.Cached)
    (hbefore : t.queue.length < 2 ^ 31) (hs : t.stepInt wait act = some t')
    (hafter : t'.queue.length < 2 ^ 31) : t'.Cached := by
  obtain ⟨ins, hins⟩ := h.holds
  obtain ⟨u, hu, hcached⟩ := TimerQueue.step_cached t act h
  have hstep := TimerQueue.step_of_stepInt hins.size hbefore hs hafter
  obtain rfl := Option.some.inj (hstep.symm.trans hu)
  exact hcached

/-- **Timer-queue bookkeeping.** For every waiting time and every sequence of calls at any clock
readings, from the empty queue on: every call is defined, so that `begin()` is never dereferenced on
an empty queue; and after each call the size is the number of entries, is not negative, and the head
time is the least key of a queue with entries, if and only if the queue never has 2^31 entries. -/
theorem timer_queue_bookkeeping_iff (wait : Int) (acts : List TimerAct) :
    ∃ t, run (TimerQueue.stepInt wait) TimerQueue.empty acts = some t ∧
      ((∀ pre post m, acts = pre ++ post →
          run (TimerQueue.stepInt wait) TimerQueue.empty pre = some m → m.Bookkept) ↔
        ∀ pre post m, acts = pre ++ post →
          run (TimerQueue.stepInt wait) TimerQueue.empty pre = some m →
            m.queue.length < 2 ^ 31) := by
  have htotal := run_total (TimerQueue.stepInt_counted wait)
  obtain ⟨t, hrun, -⟩ := htotal acts _ TimerQueue.empty_counted
  refine ⟨t, hrun, ?_⟩
  constructor
  · intro hall pre post m heq hm
    obtain ⟨m', hm', hcounted⟩ := htotal pre _ TimerQueue.empty_counted
    obtain rfl := Option.some.inj (hm.symm.trans hm')
    obtain ⟨hsize, -⟩ := hall pre post m heq hm
    -- the counter is an `int`
    have hrange := (bmod_range m.queue.length).2
    rw [← hcounted, hsize] at hrange
    omega
  · intro hshort pre post m heq hm
    have hstep : ∀ (t : TimerQueue) (act : TimerAct) (t' : TimerQueue),
        t.Cached ∧ t.queue.length < 2 ^ 31 →
        (∀ u, t.stepInt wait act = some u → u.queue.length < 2 ^ 31) →
        t.stepInt wait act = some t' → t'.Cached ∧ t'.queue.length < 2 ^ 31 :=
      fun t act t' h hafter hs => ⟨h.1.stepInt h.2 hs (hafter t' hs), hafter t' hs⟩
    have hmeets : Meets (TimerQueue.stepInt wait)
        (fun t act => ∀ u, t.stepInt wait act = some u → u.queue.length < 2 ^ 31)
        TimerQueue.empty pre := by
      apply meets_of_prefixes
      intro before act behind hpre t ht u hs
      apply hshort (before ++ [act]) (behind ++ post) u
      · rw [heq, hpre]
        simp
      · exact run_append.mpr ⟨t, ht, run_cons.mpr ⟨u, hs, rfl⟩⟩
    have hcached := run_invariant hstep pre _ m ⟨TimerQueue.empty_cached, Nat.two_pow_pos 31⟩
      hmeets hm
    exact hcached.1.bookkept

/-- `n` calls of `add_to_timer_queue` make a queue of `n` entries. -/
theorem run_addInt (wait now : Int) (h : MsgHdr) (n : Nat) {s : TimerQueue} (hs : s.Counted) :
    ∃ t, run (TimerQueue.stepInt wait) s (List.replicate n (.add now h)) = some t ∧ t.Counted ∧
      t.queue.length = s.queue.length + n := by
  induction n generalizing s with
  | zero => exact ⟨s, rfl, hs, rfl⟩
  | succ n ih =>
    obtain ⟨m, hadd, hm, hone⟩ := hs.addInt h
    obtain ⟨t, hrun, ht, hlength⟩ := ih hm
    refine ⟨t, ?_, ht, ?_⟩
    · rw [List.replicate_succ]
      exact run_cons.mpr ⟨m, hadd, hrun⟩
    · rw [hlength, hone]
      omega

/-- After 2^31 calls of `add_to_timer_queue` the size is negative. -/
theorem timer_queue_size_overflows :
    ∃ t, run (TimerQueue.stepInt 20) TimerQueue.empty (List.replicate (2 ^ 31) (.add 0 ⟨0, 0⟩)) =
        some t ∧ t.queue.length = 2 ^ 31 ∧ t.size = -2 ^ 31 ∧ ¬ t.Bookkept := by
  obtain ⟨t, hrun, hcounted, hlength⟩ :=
    run_addInt 20 0 ⟨0, 0⟩ (2 ^ 31) TimerQueue.empty_counted
  have hempty : TimerQueue.empty.queue.length = 0 := rfl
  rw [hempty, Nat.zero_add] at hlength
  have hsize : t.size = -2 ^ 31 := by
    rw [hcounted, hlength]
    decide
  refine ⟨t, hrun, hlength, hsize, fun hright => ?_⟩
  have hpos := hright.2.1
  rw [hsize] at hpos
  revert hpos
  decide

end Mgx
