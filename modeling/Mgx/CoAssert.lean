import Mgx.CoSleep

/-
  The assertions of the scheduler.

  `add_event_wait_epoll` and `remove_event_wait_epoll` assert that `epoll_ctl`
  succeeds. The interest list is keyed by the descriptor, so that a descriptor can
  stand in it for one coroutine only.

  What is proved: `scheduler_assertions_iff`. On descriptors that stay open while a
  coroutine waits on them, with whatever EAGAIN, EPOLLERR and order of events, no
  assertion fails exactly as long as no coroutine begins to wait on a descriptor on
  which another waits.
-/
namespace Mgx
open Runs

/-- No descriptor is closed on which a coroutine waits. -/
def StaysOpen (s : Sched) (act : CoAct) : Prop :=
  ∀ fd ∈ act.closed, fd ∉ s.epoll.map Prod.fst

instance (s : Sched) (act : CoAct) : Decidable (StaysOpen s act) :=
  inferInstanceAs (Decidable (∀ fd ∈ act.closed, _ ∉ _))

/-- The descriptor the step waits on. -/
def CoAct.awaited : CoAct → Option Int
  | .wait fd => some fd
  | _ => none

/-- A coroutine that is about to wait on a descriptor is the only one to do so. -/
def WaitsAlone (s : Sched) (act : CoAct) : Prop :=
  ∀ fd ∈ act.awaited, fd ∉ s.epoll.map Prod.fst

instance (s : Sched) (act : CoAct) : Decidable (WaitsAlone s act) :=
  inferInstanceAs (Decidable (∀ fd ∈ act.awaited, _ ∉ _))

theorem WaitsAlone.of_none {s : Sched} {act : CoAct} (h : act.awaited = none) :
    WaitsAlone s act := by
  intro fd hfd
  rw [h] at hfd
  cases hfd

/-- The events still to be looked at are of registrations, each of another descriptor. -/
structure Sched.Sound (s : Sched) : Prop where
  sleeps : ∃ calls, SleepSched.Inv ⟨s, calls⟩
  events : ∀ evs, s.phase = .atEvents evs →
    (evs.map CoEvent.fd).Nodup ∧ ∀ e ∈ evs, (e.fd, e.co) ∈ s.epoll

theorem Sched.start_sound : Sched.start.Sound := ⟨⟨[], SleepSched.start_inv⟩, nofun⟩

section
variable {s : Sched}

/-- The first of the sleepers sleeps, so that nothing is asserted when it is resumed. -/
theorem Sched.Sound.scheduleSleep (h : s.Sound) (now : Int) :
    (s.scheduleSleep now).aborted = s.aborted ∧ (s.scheduleSleep now).phase = .atReady := by
  obtain ⟨calls, hinv⟩ := h.sleeps
  unfold Sched.scheduleSleep
  split
  · exact ⟨rfl, rfl⟩
  · rename_i ms c rest htree
    split
    · have hmem : (ms, c) ∈ calls.map SleepCall.entry := by
        apply hinv.tree.perm.mem_iff.mp
        show (ms, c) ∈ s.sleepTree
        rw [htree]
        exact List.mem_cons_self
      obtain ⟨x, hx, hentry⟩ := List.mem_map.mp hmem
      have hstatus : (s.co c).status = .sleeping :=
        (hinv.sleeping c).mpr (List.mem_map.mpr ⟨x, hx, congrArg Prod.snd hentry⟩)
      simp only [Sched.resume, hstatus]
      exact ⟨rfl, rfl⟩
    · exact ⟨rfl, rfl⟩

/-- The first of the ready list is ready. -/
theorem Sched.Sound.scheduleReady (h : s.Sound) :
    s.scheduleReady.aborted = s.aborted ∧ s.scheduleReady.phase = .atPoll := by
  obtain ⟨calls, hinv⟩ := h.sleeps
  unfold Sched.scheduleReady
  split
  · exact ⟨rfl, rfl⟩
  · rename_i c rest hlist
    have hmem : c ∈ s.readyList := by
      rw [hlist]
      exact List.mem_cons_self
    have hstatus : (s.co c).status = .ready := (hinv.ready c hmem).2
    simp only [Sched.resume, hstatus]
    exact ⟨rfl, rfl⟩

/-- The coroutine of an event waits, and its descriptor is registered; the events behind it are of
other descriptors, and stay registered. -/
theorem Sched.Sound.scheduleEvent (h : s.Sound) {evs : List CoEvent}
    (hphase : s.phase = .atEvents evs) : (s.scheduleEvent evs).aborted = s.aborted ∧
      ∀ evs', (s.scheduleEvent evs).phase = .atEvents evs' →
        (evs'.map CoEvent.fd).Nodup ∧ ∀ e ∈ evs', (e.fd, e.co) ∈ (s.scheduleEvent evs).epoll := by
  obtain ⟨calls, hinv⟩ := h.sleeps
  obtain ⟨hnodup, hmem⟩ := h.events evs hphase
  cases evs with
  | nil => exact ⟨rfl, nofun⟩
  | cons e rest =>
    have hthere := hmem e List.mem_cons_self
    obtain ⟨hstatus, hfd⟩ := hinv.waiting (e.fd, e.co) hthere
    simp only at hstatus hfd
    have hreg : e.fd ∈ s.epoll.map Prod.fst := List.mem_map_of_mem (f := Prod.fst) hthere
    rw [List.map_cons, List.nodup_cons] at hnodup
    have hrest : ∀ x ∈ rest, (x.fd, x.co) ∈ epollDel s.epoll e.fd := by
      intro x hx
      apply mem_epollDel_of_ne (hmem x (List.mem_cons_of_mem e hx))
      intro (hsame : x.fd = e.fd)
      exact hnodup.1 (hsame ▸ List.mem_map_of_mem hx)
    cases herr : e.err with
    | true =>
      simp only [Sched.scheduleEvent, herr, if_true, hfd]
      refine ⟨trivial, fun evs' hevs => ?_⟩
      obtain rfl := SchedAt.atEvents.inj hevs
      exact ⟨hnodup.2, hrest⟩
    | false =>
      simp only [Sched.scheduleEvent, herr, Bool.false_eq_true, if_false, Sched.resume, hstatus,
        hfd, hreg, if_true]
      refine ⟨rfl, fun evs' hevs => ?_⟩
      obtain rfl := SchedAt.atEvents.inj hevs
      exact ⟨hnodup.2, hrest⟩

/-- Where nothing leaves the interest list and `schedule` stays where it is, the events stay
registered. -/
theorem Sched.Sound.stay (h : s.Sound) {s' : Sched} (hphase : s'.phase = s.phase)
    (hsub : s.epoll ⊆ s'.epoll) : ∀ evs, s'.phase = .atEvents evs →
      (evs.map CoEvent.fd).Nodup ∧ ∀ e ∈ evs, (e.fd, e.co) ∈ s'.epoll := by
  intro evs hevs
  obtain ⟨hnodup, hmem⟩ := h.events evs (hphase ▸ hevs)
  exact ⟨hnodup, fun e he => hsub (hmem e he)⟩

end

/-- Every step keeps the state sound, and the only assertion that can fail in it is the one of a
coroutine that comes to wait beside another. -/
theorem Sched.step_sound (s : Sched) (act : CoAct) (s' : Sched) (h : s.Sound)
    (hopen : StaysOpen s act) (hs : s.step act = some s') :
    s'.Sound ∧ (s'.aborted = false ↔ WaitsAlone s act) := by
  obtain ⟨calls, hinv⟩ := h.sleeps
  obtain ⟨calls', hstep⟩ : ∃ calls', SleepSched.step ⟨s, calls⟩ act = some ⟨s', calls'⟩ := by
    rw [SleepSched.step, hs, Option.map_some]
    exact ⟨_, rfl⟩
  have hsleeps : SleepSched.Inv ⟨s', calls'⟩ := SleepSched.step_inv _ act _ hinv hstep
  unfold Sched.step at hs
  split at hs
  case isTrue => cases hs
  case isFalse haborted =>
  have hruns : s.aborted = false := by simpa using haborted
  cases act with
  | schedule now =>
    simp only [Option.ite_none_right_eq_some, Option.some.injEq] at hs
    obtain ⟨-, rfl⟩ := hs
    obtain ⟨hsame, hphase⟩ := h.scheduleSleep now
    refine ⟨⟨⟨_, hsleeps⟩, fun evs hevs => ?_⟩, iff_of_true (hsame.trans hruns) (.of_none rfl)⟩
    rw [hphase] at hevs
    cases hevs
  | ready =>
    simp only [Option.ite_none_right_eq_some, Option.some.injEq] at hs
    obtain ⟨-, rfl⟩ := hs
    obtain ⟨hsame, hphase⟩ := h.scheduleReady
    refine ⟨⟨⟨_, hsleeps⟩, fun evs hevs => ?_⟩, iff_of_true (hsame.trans hruns) (.of_none rfl)⟩
    rw [hphase] at hevs
    cases hevs
  | poll evs =>
    simp only [Option.ite_none_right_eq_some, Option.some.injEq] at hs
    obtain ⟨⟨-, -, -, hnodup, hmem⟩, rfl⟩ := hs
    refine ⟨⟨⟨_, hsleeps⟩, fun evs' hevs => ?_⟩, iff_of_true hruns (.of_none rfl)⟩
    obtain rfl := SchedAt.atEvents.inj hevs
    exact ⟨hnodup, hmem⟩
  | event =>
    simp only at hs
    split at hs
    · rename_i evs hidle hphase
      obtain rfl := Option.some.inj hs
      obtain ⟨hsame, hevents⟩ := h.scheduleEvent hphase
      exact ⟨⟨⟨_, hsleeps⟩, hevents⟩, iff_of_true (hsame.trans hruns) (.of_none rfl)⟩
    · cases hs
  | create =>
    simp only [Option.ite_none_right_eq_some, Option.some.injEq] at hs
    obtain ⟨-, rfl⟩ := hs
    exact ⟨⟨⟨_, hsleeps⟩, h.stay rfl fun _ he => he⟩, iff_of_true hruns (.of_none rfl)⟩
  | close fd =>
    simp only [Option.ite_none_right_eq_some, Option.some.injEq] at hs
    obtain ⟨-, rfl⟩ := hs
    refine ⟨⟨⟨_, hsleeps⟩, h.stay rfl fun e he => ?_⟩, iff_of_true hruns (.of_none rfl)⟩
    show e ∈ epollDel s.epoll fd
    rwa [epollDel_of_notMem (hopen fd rfl)]
  | yield =>
    obtain ⟨c, -, rfl⟩ := Option.map_eq_some_iff.mp hs
    exact ⟨⟨⟨_, hsleeps⟩, h.stay rfl fun _ he => he⟩, iff_of_true hruns (.of_none rfl)⟩
  | msleep now ms =>
    obtain ⟨c, -, rfl⟩ := Option.map_eq_some_iff.mp hs
    exact ⟨⟨⟨_, hsleeps⟩, h.stay rfl fun _ he => he⟩, iff_of_true hruns (.of_none rfl)⟩
  | wait fd =>
    obtain ⟨c, -, hs⟩ := Option.map_eq_some_iff.mp hs
    split at hs
    · next hreg =>
      -- EPOLL_CTL_ADD fails
      subst hs
      exact ⟨⟨⟨_, hsleeps⟩, h.stay rfl fun _ he => he⟩, iff_of_false nofun fun hok => hok fd rfl hreg⟩
    · next hfree =>
      subst hs
      refine ⟨⟨⟨_, hsleeps⟩, h.stay rfl (List.subset_cons_self _ _)⟩, iff_of_true hruns ?_⟩
      intro fd' hfd
      obtain rfl := Option.some.inj hfd
      exact hfree
  | exit =>
    obtain ⟨c, -, rfl⟩ := Option.map_eq_some_iff.mp hs
    exact ⟨⟨⟨_, hsleeps⟩, h.stay rfl fun _ he => he⟩, iff_of_true hruns (.of_none rfl)⟩

/-- **When the assertions hold.** In every run in which no descriptor is closed on which a coroutine
waits: no `epoll_ctl` that is asserted fails, neither the registration of a descriptor nor its
removal, if and only if no coroutine ever begins to wait on a descriptor on which one waits. -/
theorem scheduler_assertions_iff (acts : List CoAct) (s : Sched)
    (hrun : run Sched.step Sched.start acts = some s)
    (hopen : Meets Sched.step StaysOpen Sched.start acts) :
    (∀ pre post m, acts = pre ++ post → run Sched.step Sched.start pre = some m →
      m.aborted = false) ↔ Meets Sched.step WaitsAlone Sched.start acts := by
  have hsound : ∀ pre post m, acts = pre ++ post → run Sched.step Sched.start pre = some m →
      m.Sound := by
    rintro pre post m rfl hm
    exact run_invariant (fun s a s' h ho hs => (Sched.step_sound s a s' h ho hs).1) pre _ m
      Sched.start_sound (meets_append hopen hm).1 hm
  have hstep : ∀ (s : Sched) (a : CoAct) (s' : Sched), s.Sound ∧ s.aborted = false → StaysOpen s a →
      s.step a = some s' → (s'.Sound ∧ s'.aborted = false ↔ WaitsAlone s a) := by
    intro s a s' h ho hs
    obtain ⟨hnext, halone⟩ := Sched.step_sound s a s' h.1 ho hs
    exact ⟨fun h' => halone.mp h'.2, fun hok => ⟨hnext, halone.mpr hok⟩⟩
  rw [← run_invariant_iff_of hstep acts Sched.start s ⟨Sched.start_sound, rfl⟩ hopen hrun]
  constructor
  · exact fun hall pre post m heq hm => ⟨hsound pre post m heq hm, hall pre post m heq hm⟩
  · exact fun hall pre post m heq hm => (hall pre post m heq hm).2

/-- A coroutine receives from descriptor 5, another sends on descriptor 6; when 5 is readable, the
first goes on, and waits once more. -/
theorem scheduler_assertions_iff_two :
    ∃ s, run Sched.step Sched.start [.create, .create, .schedule 0, .ready, .wait 5, .poll [],
        .event, .schedule 1, .ready, .wait 6, .poll [⟨5, 0, false⟩], .event, .wait 5, .event] =
        some s ∧ s.aborted = false := by
  obtain ⟨s, hrun⟩ : ∃ s, run Sched.step Sched.start [.create, .create, .schedule 0, .ready,
        .wait 5, .poll [], .event, .schedule 1, .ready, .wait 6, .poll [⟨5, 0, false⟩], .event,
        .wait 5, .event] = some s := ⟨_, rfl⟩
  have hall := (scheduler_assertions_iff _ s hrun (by decide)).mpr (by decide)
  exact ⟨s, hrun, hall _ [] s (List.append_nil _).symm hrun⟩

/-- A coroutine receives from descriptor 5, and before anything comes another finds the send buffer
of 5 full. -/
theorem scheduler_assertion_fails :
    Meets Sched.step StaysOpen Sched.start [.create, .create, .schedule 0, .ready, .wait 5,
        .poll [], .event, .schedule 1, .ready, .wait 5] ∧
    ∃ s, run Sched.step Sched.start [.create, .create, .schedule 0, .ready, .wait 5, .poll [],
        .event, .schedule 1, .ready, .wait 5] = some s ∧ s.aborted = true :=
  ⟨by decide, _, rfl, rfl⟩

end Mgx
