import Mathlib.Data.List.Nodup
import Mathlib.Logic.Function.Basic
import Mgx.Lib.KeyTable
import Mgx.Lib.Runs

/-
  The coroutine scheduler.

  One thread runs `schedule` and the coroutines it switches to. A coroutine that
  suspends puts itself into one of three places; the scheduler takes it off the
  ready list before it resumes it, and a coroutine that slept or waited takes
  itself off when it is resumed.

  Correspondence (C++ ↔ Lean), `misc/mgx_coroutine*.cpp`, `misc/mgx_cosocket.cpp`:
    `COROUTINE_STATUS`                                 ↔ `CoStatus`
    `m_co_ready_list`, `m_co_sleep_rbtree`             ↔ `readyList`, `sleepTree`
    what is registered with `m_epoll_fd`               ↔ `epoll`, descriptor and `data.ptr`
    `m_cur_co`                                         ↔ `cur`
    where `schedule` is                                ↔ `SchedAt`
    `resume` up to where the coroutine goes on, with
      `remove_first_sleep_rbtree` in `msleep` and
      `remove_event_wait_epoll` behind `yield(false)`  ↔ `Sched.resume`
    the three parts of `schedule`                      ↔ `.schedule`, `.ready`, `.poll`, `.event`
    `new Mgx_coroutine`, `close`                       ↔ `.create`, `.close`
    `yield`, `msleep`, the end of the function         ↔ `.yield`, `.msleep`, `.exit`
    `set_wait_fd`, `add_event_wait_epoll` and
      `yield(false)` in accept, recv, send, connect    ↔ `.wait`

  A coroutine is named by the number of its creation. A failed `MGX_ASSERT` aborts
  the process. The events a descriptor is registered for are left out, and of
  those reported only EPOLLERR matters: any others, EPOLLHUP included, resume.
  The kernel takes a descriptor that is closed out of the interest list.

  What is proved: `no_coroutine_lost`. A suspended coroutine is in exactly one of
  the three places, as long as no EPOLLERR is reported and no descriptor is closed
  on which a coroutine waits.
-/
namespace Mgx
open Runs

/-- `COROUTINE_STATUS`. -/
inductive CoStatus where
  | ready
  | waiting
  | sleeping
  | running
  | exited
  deriving DecidableEq, Repr

/-- `m_status` and `m_wait_fd`. -/
structure Co where
  status : CoStatus
  waitFd : Int
  deriving DecidableEq, Repr

/-- An element of `m_events`: whether EPOLLERR is set, and the `data.ptr` of the registration. -/
structure CoEvent where
  fd : Int
  co : Nat
  err : Bool
  deriving DecidableEq, Repr

/-- Where `schedule` is: not called; before the ready list; before `epoll_wait`; in the loop over
what it reported. -/
inductive SchedAt where
  | outside
  | atReady
  | atPoll
  | atEvents (evs : List CoEvent)
  deriving DecidableEq, Repr

/-- The scheduler. -/
structure Sched where
  cnt : Nat
  co : Nat → Co
  readyList : List Nat
  sleepTree : List (Int × Nat)
  epoll : List (Int × Nat)
  cur : Option Nat
  phase : SchedAt
  aborted : Bool

/-- `MGX_CO_MAX_EVENTS`. -/
def coMaxEvents : Nat := 500

def Sched.setCo (s : Sched) (c : Nat) (x : Co) : Sched := { s with co := Function.update s.co c x }

/-- `epoll_ctl` with EPOLL_CTL_DEL, and what `close` does to the interest list. -/
def epollDel (t : List (Int × Nat)) (fd : Int) : List (Int × Nat) := KeyTable.remove Prod.fst fd t

/-- `emplace` into the multimap: behind the equal keys. -/
def insertSleep (ms : Int) (c : Nat) : List (Int × Nat) → List (Int × Nat)
  | [] => [(ms, c)]
  | e :: t => if e.1 ≤ ms then e :: insertSleep ms c t else (ms, c) :: e :: t

/-- `resume`: the coroutine goes on where it suspended. -/
def Sched.resume (s : Sched) (c : Nat) : Sched :=
  let s' := { s.setCo c { s.co c with status := .running } with cur := some c }
  match (s.co c).status with
  | .sleeping => { s' with sleepTree := s.sleepTree.tail }
  | .waiting =>
    -- the assertion on `epoll_ctl` fails when the registration is gone
    if (s.co c).waitFd ∈ s.epoll.map Prod.fst then
      { s' with epoll := epollDel s.epoll (s.co c).waitFd }
    else { s' with aborted := true }
  | .ready => s'
  | .running => s'
  | .exited => s'

/-- What can happen: the next part of `schedule`, with the clock it reads or what `epoll_wait`
reports, and what a coroutine does that runs. -/
inductive CoAct where
  | schedule (now : Int)
  | ready
  | poll (evs : List CoEvent)
  | event
  | create
  | close (fd : Int)
  | yield
  | msleep (now ms : Int)
  | wait (fd : Int)
  | exit
  deriving DecidableEq, Repr

/-- The running coroutine `c` suspends with this status. -/
def Sched.suspend (s : Sched) (c : Nat) (status : CoStatus) : Sched :=
  { s.setCo c { s.co c with status := status } with cur := none }

/-- The part of `schedule` about the sleep tree. -/
def Sched.scheduleSleep (s : Sched) (now : Int) : Sched :=
  match s.sleepTree with
  | [] => { s with phase := .atReady }
  | (ms, c) :: _ =>
    if now ≥ ms then { s with phase := .atReady }.resume c else { s with phase := .atReady }

/-- The part about the ready list. -/
def Sched.scheduleReady (s : Sched) : Sched :=
  match s.readyList with
  | [] => { s with phase := .atPoll }
  | c :: rest => { s with phase := .atPoll, readyList := rest }.resume c

/-- One turn of the loop over the events. -/
def Sched.scheduleEvent (s : Sched) : List CoEvent → Sched
  | [] => { s with phase := .outside }
  | e :: rest =>
    -- EPOLLERR: the registration is deleted, and nothing is resumed
    if e.err then { s with phase := .atEvents rest, epoll := epollDel s.epoll (s.co e.co).waitFd }
    else { s with phase := .atEvents rest }.resume e.co

/-- What `epoll_wait` may report: registrations, each once at most. -/
def Sched.Reported (s : Sched) (evs : List CoEvent) : Prop :=
  evs.length ≤ coMaxEvents ∧ (evs.map CoEvent.fd).Nodup ∧ ∀ e ∈ evs, (e.fd, e.co) ∈ s.epoll

instance (s : Sched) (evs : List CoEvent) : Decidable (s.Reported evs) :=
  inferInstanceAs (Decidable (_ ∧ _ ∧ _))

/-- One step; the scheduler goes on when no coroutine runs. -/
def Sched.step (s : Sched) (act : CoAct) : Option Sched :=
  if s.aborted then none
  else match act with
    | .schedule now =>
      if s.cur = none ∧ s.phase = .outside then some (s.scheduleSleep now) else none
    | .ready => if s.cur = none ∧ s.phase = .atReady then some s.scheduleReady else none
    | .poll evs =>
      if s.cur = none ∧ s.phase = .atPoll ∧ s.Reported evs then
        some { s with phase := .atEvents evs }
      else none
    | .event =>
      match s.cur, s.phase with
      | none, .atEvents evs => some (s.scheduleEvent evs)
      | _, _ => none
    | .create =>
      if s.cur ≠ none ∨ s.phase = .outside then
        some { s.setCo s.cnt ⟨.ready, 0⟩ with
          cnt := s.cnt + 1, readyList := s.readyList ++ [s.cnt] }
      else none
    | .close fd =>
      if s.cur ≠ none ∨ s.phase = .outside then some { s with epoll := epollDel s.epoll fd }
      else none
    | .yield => s.cur.map fun c => { s.suspend c .ready with readyList := s.readyList ++ [c] }
    | .msleep now ms => s.cur.map fun c =>
        { s.suspend c .sleeping with sleepTree := insertSleep (now + ms) c s.sleepTree }
    | .wait fd => s.cur.map fun c =>
        if fd ∈ s.epoll.map Prod.fst then
          { s.setCo c { s.co c with waitFd := fd } with aborted := true }
        else
          { (s.setCo c { s.co c with waitFd := fd }).suspend c .waiting with
            epoll := (fd, c) :: s.epoll }
    | .exit => s.cur.map fun c => s.suspend c .exited

/-- Before the first coroutine. -/
def Sched.start : Sched where
  cnt := 0
  co := fun _ => ⟨.ready, 0⟩
  readyList := []
  sleepTree := []
  epoll := []
  cur := none
  phase := .outside
  aborted := false

/-- The event whose turn it is has no EPOLLERR. -/
def SchedAt.NoError : SchedAt → Prop
  | .outside => True
  | .atReady => True
  | .atPoll => True
  | .atEvents [] => True
  | .atEvents (e :: _) => e.err = false

instance : ∀ p : SchedAt, Decidable p.NoError
  | .outside => isTrue trivial
  | .atReady => isTrue trivial
  | .atPoll => isTrue trivial
  | .atEvents [] => isTrue trivial
  | .atEvents (_ :: _) => inferInstanceAs (Decidable (_ = _))

/-- The descriptor the step closes. -/
def CoAct.closed : CoAct → Option Int
  | .close fd => some fd
  | _ => none

/-- No EPOLLERR comes up, and no descriptor is closed on which a coroutine waits. -/
def StaysRegistered (s : Sched) (act : CoAct) : Prop :=
  (act = .event → s.phase.NoError) ∧ ∀ fd ∈ act.closed, fd ∉ s.epoll.map Prod.fst

instance (s : Sched) (act : CoAct) : Decidable (StaysRegistered s act) :=
  inferInstanceAs (Decidable ((act = .event → _) ∧ ∀ fd ∈ act.closed, _ ∉ _))

/-! ## The three places -/

/-- How often a coroutine is in the ready list, the sleep tree and the interest list together. -/
def Sched.places (s : Sched) (c : Nat) : Nat :=
  s.readyList.count c + (s.sleepTree.map Prod.snd).count c + (s.epoll.map Prod.snd).count c

theorem count_insertSleep (ms : Int) (c d : Nat) : ∀ t : List (Int × Nat),
    ((insertSleep ms c t).map Prod.snd).count d = (t.map Prod.snd).count d + [c].count d
  | [] => by simp [insertSleep]
  | e :: t => by
    rw [insertSleep]
    split
    · simp only [List.map_cons, List.count_cons, List.count_nil, count_insertSleep ms c d t]
      omega
    · simp only [List.map_cons, List.count_cons, List.count_nil]
      omega

theorem mem_insertSleep {ms : Int} {c : Nat} {e : Int × Nat} : ∀ {t : List (Int × Nat)},
    e ∈ insertSleep ms c t → e = (ms, c) ∨ e ∈ t
  | [], h => .inl (List.mem_singleton.mp h)
  | x :: t, h => by
    rw [insertSleep] at h
    split at h
    · rcases List.mem_cons.mp h with rfl | h
      · exact .inr List.mem_cons_self
      · rcases mem_insertSleep h with h | h
        · exact .inl h
        · exact .inr (List.mem_cons_of_mem _ h)
    · exact List.mem_cons.mp h

theorem mem_epollDel_of_ne {t : List (Int × Nat)} {fd : Int} {e : Int × Nat} (h : e ∈ t)
    (hne : e.1 ≠ fd) : e ∈ epollDel t fd := by
  refine (List.mem_eraseP_of_neg ?_).mpr h
  simpa using hne

theorem epollDel_of_notMem {t : List (Int × Nat)} {fd : Int} (h : fd ∉ t.map Prod.fst) :
    epollDel t fd = t := by
  refine List.eraseP_of_forall_not fun e he hfd => h ?_
  rw [← beq_iff_eq.mp hfd]
  exact List.mem_map_of_mem he

/-- Every coroutine that is suspended is in one place, the place its status says; the events still
to be looked at are of registrations. -/
structure Sched.Inv (s : Sched) : Prop where
  places : ∀ c, s.places c =
    if c < s.cnt ∧ s.cur ≠ some c ∧ (s.co c).status ≠ .exited then 1 else 0
  ready : ∀ c ∈ s.readyList, (s.co c).status = .ready
  sleeping : ∀ e ∈ s.sleepTree, (s.co e.2).status = .sleeping
  waiting : ∀ e ∈ s.epoll, (s.co e.2).status = .waiting ∧ (s.co e.2).waitFd = e.1
  fds : (s.epoll.map Prod.fst).Nodup
  cur : ∀ c, s.cur = some c → c < s.cnt ∧ (s.co c).status = .running
  events : ∀ evs, s.phase = .atEvents evs →
    (evs.map CoEvent.fd).Nodup ∧ ∀ e ∈ evs, (e.fd, e.co) ∈ s.epoll

theorem Sched.Inv.places_le {s : Sched} (h : s.Inv) (c : Nat) : s.places c ≤ 1 := by
  rw [h.places c]
  split <;> omega

/-- A coroutine in some place has been created, is suspended, and has not exited. -/
theorem Sched.Inv.suspended {s : Sched} (h : s.Inv) {c : Nat} (hc : 0 < s.places c) :
    c < s.cnt ∧ s.cur ≠ some c ∧ (s.co c).status ≠ .exited := by
  rw [h.places c] at hc
  by_contra hno
  rw [if_neg hno] at hc
  omega

/-- The running coroutine is in none, and so is one that does not exist. -/
theorem Sched.Inv.nowhere {s : Sched} (h : s.Inv) {c : Nat}
    (hc : s.cur = some c ∨ s.cnt ≤ c) :
    c ∉ s.readyList ∧ (∀ e ∈ s.sleepTree, e.2 ≠ c) ∧ ∀ e ∈ s.epoll, e.2 ≠ c := by
  have hzero : s.places c = 0 := by
    rw [h.places c, if_neg]
    rintro ⟨hlt, hcur, -⟩
    rcases hc with hc | hc
    · exact hcur hc
    · omega
  unfold Sched.places at hzero
  refine ⟨List.count_eq_zero.mp (by omega), fun e he hec => ?_, fun e he hec => ?_⟩
  · have hpos := List.count_pos_iff.mpr (List.mem_map_of_mem (f := Prod.snd) he)
    rw [hec] at hpos
    omega
  · have hpos := List.count_pos_iff.mpr (List.mem_map_of_mem (f := Prod.snd) he)
    rw [hec] at hpos
    omega

/-- The state after `c` was changed and nothing else of the coroutines. -/
structure Sched.Touches (s s' : Sched) (c : Nat) (x : Co) : Prop where
  co : s'.co = Function.update s.co c x
  cnt : s'.cnt = s.cnt

theorem Sched.Touches.self {s s' : Sched} {c : Nat} {x : Co} (h : s.Touches s' c x) :
    s'.co c = x := by
  rw [h.co, Function.update_self]

theorem Sched.Touches.other {s s' : Sched} {c d : Nat} {x : Co} (h : s.Touches s' c x)
    (hd : d ≠ c) : s'.co d = s.co d := by
  rw [h.co, Function.update_of_ne hd]

/-- A suspended coroutine is resumed: it leaves its place, and the others stay where they are. -/
theorem Sched.Inv.take {s s' : Sched} (h : s.Inv) {c : Nat} {x : Co} (ht : s.Touches s' c x)
    (hx : x.status = .running) (hidle : s.cur = none) (hcur : s'.cur = some c)
    (hplaces : ∀ d, s.places d = s'.places d + [c].count d)
    (hready : s'.readyList ⊆ s.readyList) (hsleep : s'.sleepTree ⊆ s.sleepTree)
    (hepoll : s'.epoll ⊆ s.epoll) (hfds : (s'.epoll.map Prod.fst).Nodup)
    (hevents : ∀ evs, s'.phase = .atEvents evs →
      (evs.map CoEvent.fd).Nodup ∧ ∀ e ∈ evs, (e.fd, e.co) ∈ s'.epoll) : s'.Inv := by
  have hone : 0 < s.places c := by
    rw [hplaces c, List.count_cons_self]
    omega
  have hzero : s'.places c = 0 := by
    have hle := h.places_le c
    rw [hplaces c, List.count_cons_self] at hle
    omega
  -- whoever is still in a place is another coroutine
  have hready' : ∀ d ∈ s'.readyList, d ≠ c := by
    rintro d hd rfl
    have hpos := List.count_pos_iff.mpr hd
    unfold Sched.places at hzero
    omega
  have hsleep' : ∀ e ∈ s'.sleepTree, e.2 ≠ c := by
    rintro e he rfl
    have hpos := List.count_pos_iff.mpr (List.mem_map_of_mem (f := Prod.snd) he)
    unfold Sched.places at hzero
    omega
  have hepoll' : ∀ e ∈ s'.epoll, e.2 ≠ c := by
    rintro e he rfl
    have hpos := List.count_pos_iff.mpr (List.mem_map_of_mem (f := Prod.snd) he)
    unfold Sched.places at hzero
    omega
  refine ⟨?_, ?_, ?_, ?_, hfds, ?_, hevents⟩
  · intro d
    by_cases hd : d = c
    · -- it runs, and is in no place
      subst hd
      rw [hzero, if_neg]
      exact fun hno => hno.2.1 hcur
    · have hd' : [c].count d = 0 := List.count_eq_zero.mpr (by simpa using hd)
      have hplace := hplaces d
      rw [hd', h.places d, hidle] at hplace
      rw [ht.cnt, ht.other hd, hcur]
      simp only [ne_eq, reduceCtorEq, not_false_eq_true, true_and] at hplace
      simp only [ne_eq, Option.some.injEq, Ne.symm hd, not_false_eq_true, true_and]
      omega
  · intro d hd
    rw [ht.other (hready' d hd)]
    exact h.ready d (hready hd)
  · intro e he
    rw [ht.other (hsleep' e he)]
    exact h.sleeping e (hsleep he)
  · intro e he
    rw [ht.other (hepoll' e he)]
    exact h.waiting e (hepoll he)
  · intro d hd
    rw [hcur] at hd
    obtain rfl := Option.some.inj hd
    rw [ht.self, ht.cnt]
    exact ⟨(h.suspended hone).1, hx⟩

/-- The running coroutine suspends: it comes into the place its new status says, or into none when
it exits. -/
theorem Sched.Inv.put {s s' : Sched} (h : s.Inv) {c : Nat} {x : Co} (ht : s.Touches s' c x)
    (hc : s.cur = some c) (hcur : s'.cur = none)
    (hplaces : ∀ d, s'.places d = s.places d + if x.status = .exited then 0 else [c].count d)
    (hready : ∀ d ∈ s'.readyList, d ∈ s.readyList ∨ d = c ∧ x.status = .ready)
    (hsleep : ∀ e ∈ s'.sleepTree, e ∈ s.sleepTree ∨ e.2 = c ∧ x.status = .sleeping)
    (hepoll : ∀ e ∈ s'.epoll, e ∈ s.epoll ∨ e.2 = c ∧ x.status = .waiting ∧ x.waitFd = e.1)
    (hfds : (s'.epoll.map Prod.fst).Nodup) (hsub : s.epoll ⊆ s'.epoll)
    (hphase : s'.phase = s.phase) : s'.Inv := by
  obtain ⟨hready', hsleep', hepoll'⟩ := h.nowhere (.inl hc)
  refine ⟨?_, ?_, ?_, ?_, hfds, ?_, ?_⟩
  · intro d
    rw [hplaces d, h.places d, hc, hcur, ht.cnt]
    by_cases hd : d = c
    · subst hd
      have hlt := (h.cur d hc).1
      rw [if_neg (fun hno => hno.2.1 rfl), ht.self, List.count_cons_self]
      by_cases hexit : x.status = .exited
      · simp [hexit]
      · simp [hexit, hlt]
    · have hd' : [c].count d = 0 := List.count_eq_zero.mpr (by simpa using hd)
      rw [hd', ht.other hd]
      simp [Ne.symm hd]
  · intro d hd
    rcases hready d hd with hold | ⟨rfl, hx⟩
    · have hne : d ≠ c := fun he => hready' (he ▸ hold)
      rw [ht.other hne]
      exact h.ready d hold
    · rw [ht.self, hx]
  · intro e he
    rcases hsleep e he with hold | ⟨rfl, hx⟩
    · rw [ht.other (hsleep' e hold)]
      exact h.sleeping e hold
    · rw [ht.self, hx]
  · intro e he
    rcases hepoll e he with hold | ⟨rfl, hx, hfd⟩
    · rw [ht.other (hepoll' e hold)]
      exact h.waiting e hold
    · rw [ht.self]
      exact ⟨hx, hfd⟩
  · intro d hd
    rw [hcur] at hd
    cases hd
  · intro evs hevs
    obtain ⟨hnodup, hmem⟩ := h.events evs (hphase ▸ hevs)
    exact ⟨hnodup, fun e he => hsub (hmem e he)⟩

/-! ## The scheduler -/

/-- Going on in `schedule` without resuming anything. -/
theorem Sched.Inv.goOn {s : Sched} (h : s.Inv) {phase : SchedAt}
    (hphase : ∀ evs, phase = .atEvents evs →
      (evs.map CoEvent.fd).Nodup ∧ ∀ e ∈ evs, (e.fd, e.co) ∈ s.epoll) :
    Sched.Inv { s with phase := phase } :=
  ⟨h.places, h.ready, h.sleeping, h.waiting, h.fds, h.cur, hphase⟩

/-- The first of the sleepers is resumed, and takes the first entry off the tree. -/
theorem Sched.scheduleSleep_inv {s : Sched} (h : s.Inv) (hidle : s.cur = none) (now : Int) :
    (s.scheduleSleep now).Inv := by
  unfold scheduleSleep
  split
  · exact h.goOn (by rintro evs ⟨⟩)
  · rename_i ms c rest htree
    split
    · have hstatus := h.sleeping (ms, c) (by rw [htree]; exact List.mem_cons_self)
      have hplaces : ∀ d, s.places d = s.readyList.count d + (rest.map Prod.snd).count d +
          (s.epoll.map Prod.snd).count d + [c].count d := by
        intro d
        unfold places
        rw [htree]
        simp only [List.map_cons, List.count_cons, List.count_nil]
        omega
      simp only [resume, hstatus, htree, List.tail_cons]
      refine h.take (c := c) ⟨rfl, rfl⟩ rfl hidle rfl hplaces (fun _ hd => hd) ?_ (fun _ hd => hd)
        h.fds (by rintro evs ⟨⟩)
      rw [htree]
      exact List.subset_cons_self _ _
    · exact h.goOn (by rintro evs ⟨⟩)

/-- The first of the ready list is taken off it and resumed. -/
theorem Sched.scheduleReady_inv {s : Sched} (h : s.Inv) (hidle : s.cur = none) :
    s.scheduleReady.Inv := by
  unfold scheduleReady
  split
  · exact h.goOn (by rintro evs ⟨⟩)
  · rename_i c rest hlist
    have hstatus := h.ready c (by rw [hlist]; exact List.mem_cons_self)
    have hplaces : ∀ d, s.places d = rest.count d + (s.sleepTree.map Prod.snd).count d +
        (s.epoll.map Prod.snd).count d + [c].count d := by
      intro d
      unfold places
      rw [hlist]
      simp only [List.count_cons, List.count_nil]
      omega
    simp only [resume, hstatus]
    refine h.take (c := c) ⟨rfl, rfl⟩ rfl hidle rfl hplaces ?_ (fun _ hd => hd) (fun _ hd => hd)
      h.fds (by rintro evs ⟨⟩)
    rw [hlist]
    exact List.subset_cons_self _ _

/-- The coroutine of an event is resumed, and takes its registration off the interest list. -/
theorem Sched.scheduleEvent_inv {s : Sched} (h : s.Inv) (hidle : s.cur = none)
    {evs : List CoEvent} (hphase : s.phase = .atEvents evs) (hok : s.phase.NoError) :
    (s.scheduleEvent evs).Inv := by
  obtain ⟨hnodup, hmem⟩ := h.events evs hphase
  cases evs with
  | nil => exact h.goOn (by rintro evs ⟨⟩)
  | cons e rest =>
    have herr : e.err = false := by rw [hphase] at hok; exact hok
    have he := hmem e List.mem_cons_self
    obtain ⟨hstatus, hfd⟩ := h.waiting _ he
    have hreg : e.fd ∈ s.epoll.map Prod.fst := List.mem_map_of_mem (f := Prod.fst) he
    have hone : (s.epoll.map Prod.snd).count e.co ≤ 1 := by
      have hle := h.places_le e.co
      unfold places at hle
      omega
    obtain ⟨hcount, hfds, hrest⟩ : (∀ d, (s.epoll.map Prod.snd).count d =
        ((epollDel s.epoll e.fd).map Prod.snd).count d + [e.co].count d) ∧
        ((epollDel s.epoll e.fd).map Prod.fst).Nodup ∧
        ∀ x ∈ epollDel s.epoll e.fd, x ∈ s.epoll ∧ x.2 ≠ e.co :=
      KeyTable.remove_spec h.fds he hone
    have hplaces : ∀ d, s.places d = s.readyList.count d + (s.sleepTree.map Prod.snd).count d +
        ((epollDel s.epoll e.fd).map Prod.snd).count d + [e.co].count d := by
      intro d
      have hd := hcount d
      unfold places
      omega
    simp only [scheduleEvent, herr, Bool.false_eq_true, if_false, resume, hstatus, hfd, hreg,
      if_true]
    refine h.take (c := e.co) ⟨rfl, rfl⟩ rfl hidle rfl hplaces (fun _ hd => hd) (fun _ hd => hd)
      (fun x hx => (hrest x hx).1) hfds ?_
    -- the events to come are of other descriptors
    rintro evs ⟨⟩
    obtain ⟨hne, hnodup⟩ := List.nodup_cons.mp hnodup
    refine ⟨hnodup, fun e' he' => ?_⟩
    refine mem_epollDel_of_ne (hmem e' (List.mem_cons_of_mem e he')) fun hsame => hne ?_
    have hsame : e'.fd = e.fd := hsame
    rw [← hsame]
    exact List.mem_map_of_mem he'

/-! ## The coroutines -/

/-- A new coroutine comes into the ready list. -/
theorem Sched.create_inv {s : Sched} (h : s.Inv) :
    Sched.Inv { s.setCo s.cnt ⟨.ready, 0⟩ with
      cnt := s.cnt + 1, readyList := s.readyList ++ [s.cnt] } := by
  obtain ⟨hready, hsleep, hepoll⟩ := h.nowhere (.inr (Nat.le_refl s.cnt))
  have hother : ∀ d, d ≠ s.cnt → (s.setCo s.cnt ⟨.ready, 0⟩).co d = s.co d :=
    fun d hd => Function.update_of_ne hd _ _
  have hself : (s.setCo s.cnt ⟨.ready, 0⟩).co s.cnt = ⟨.ready, 0⟩ := Function.update_self ..
  refine ⟨?_, ?_, ?_, ?_, h.fds, ?_, h.events⟩
  · intro d
    have hplace := h.places d
    unfold places at hplace
    show (s.readyList ++ [s.cnt]).count d + _ + _ =
      if d < s.cnt + 1 ∧ s.cur ≠ some d ∧ ((s.setCo s.cnt ⟨.ready, 0⟩).co d).status ≠ .exited
        then 1 else 0
    rw [List.count_append]
    by_cases hd : d = s.cnt
    · -- the new one, which was nowhere
      subst hd
      have hcur : s.cur ≠ some s.cnt := fun hc => Nat.lt_irrefl _ (h.cur _ hc).1
      rw [if_neg (fun hno => Nat.lt_irrefl _ hno.1)] at hplace
      rw [hself, if_pos ⟨Nat.lt_succ_self _, hcur, by simp⟩, List.count_cons_self, List.count_nil]
      show _ + 1 + (s.sleepTree.map Prod.snd).count s.cnt + (s.epoll.map Prod.snd).count s.cnt = 1
      omega
    · have hd' : [s.cnt].count d = 0 := List.count_eq_zero.mpr (by simpa using hd)
      have hiff : d < s.cnt + 1 ↔ d < s.cnt := by omega
      rw [hd', hother d hd, Nat.add_zero]
      simp only [hiff]
      exact hplace
  · intro d hd
    rcases List.mem_append.mp hd with hd | hd
    · show ((s.setCo s.cnt ⟨.ready, 0⟩).co d).status = .ready
      rw [hother d (fun he => hready (he ▸ hd))]
      exact h.ready d hd
    · obtain rfl := List.mem_singleton.mp hd
      show ((s.setCo s.cnt ⟨.ready, 0⟩).co s.cnt).status = .ready
      rw [hself]
  · intro e he
    show ((s.setCo s.cnt ⟨.ready, 0⟩).co e.2).status = .sleeping
    rw [hother _ (hsleep e he)]
    exact h.sleeping e he
  · intro e he
    show ((s.setCo s.cnt ⟨.ready, 0⟩).co e.2).status = .waiting ∧
      ((s.setCo s.cnt ⟨.ready, 0⟩).co e.2).waitFd = e.1
    rw [hother _ (hepoll e he)]
    exact h.waiting e he
  · intro d hd
    obtain ⟨hlt, hstatus⟩ := h.cur d hd
    refine ⟨Nat.lt_succ_of_lt hlt, ?_⟩
    show ((s.setCo s.cnt ⟨.ready, 0⟩).co d).status = .running
    rw [hother d (Nat.ne_of_lt hlt)]
    exact hstatus

/-- `yield`. -/
theorem Sched.yield_inv {s : Sched} (h : s.Inv) {c : Nat} (hc : s.cur = some c) :
    Sched.Inv { s.suspend c .ready with readyList := s.readyList ++ [c] } := by
  refine h.put (c := c) ⟨rfl, rfl⟩ hc rfl ?_ ?_ (fun _ he => .inl he) (fun _ he => .inl he) h.fds
    (fun _ he => he) rfl
  · intro d
    show (s.readyList ++ [c]).count d + _ + _ = s.places d + [c].count d
    rw [List.count_append, places]
    show _ + (s.sleepTree.map Prod.snd).count d + (s.epoll.map Prod.snd).count d = _
    omega
  · intro d hd
    rcases List.mem_append.mp hd with hd | hd
    · exact .inl hd
    · exact .inr ⟨List.mem_singleton.mp hd, rfl⟩

/-- `msleep`. -/
theorem Sched.msleep_inv {s : Sched} (h : s.Inv) {c : Nat} (hc : s.cur = some c) (ms : Int) :
    Sched.Inv { s.suspend c .sleeping with sleepTree := insertSleep ms c s.sleepTree } := by
  refine h.put (c := c) ⟨rfl, rfl⟩ hc rfl ?_ (fun _ he => .inl he) ?_ (fun _ he => .inl he) h.fds
    (fun _ he => he) rfl
  · intro d
    show s.readyList.count d + ((insertSleep ms c s.sleepTree).map Prod.snd).count d +
      (s.epoll.map Prod.snd).count d = s.places d + [c].count d
    rw [count_insertSleep, places]
    omega
  · intro e he
    rcases mem_insertSleep he with rfl | he
    · exact .inr ⟨rfl, rfl⟩
    · exact .inl he

/-- A call of the socket that would block. -/
theorem Sched.wait_inv {s : Sched} (h : s.Inv) {c : Nat} (hc : s.cur = some c) {fd : Int}
    (hfree : fd ∉ s.epoll.map Prod.fst) :
    Sched.Inv { (s.setCo c { s.co c with waitFd := fd }).suspend c .waiting with
      epoll := (fd, c) :: s.epoll } := by
  refine h.put (c := c) (x := ⟨.waiting, fd⟩) ⟨?_, rfl⟩ hc rfl ?_ (fun _ he => .inl he)
    (fun _ he => .inl he) ?_ (List.nodup_cons.mpr ⟨hfree, h.fds⟩)
    (List.subset_cons_self _ _) rfl
  · show Function.update (Function.update s.co c _) c _ = _
    rw [Function.update_idem]
    show Function.update s.co c { Function.update s.co c _ c with status := .waiting } = _
    rw [Function.update_self]
  · intro d
    show s.readyList.count d + (s.sleepTree.map Prod.snd).count d +
      (((fd, c) :: s.epoll).map Prod.snd).count d = s.places d + [c].count d
    simp only [List.map_cons, List.count_cons, List.count_nil, places]
    omega
  · intro e he
    rcases List.mem_cons.mp he with rfl | he
    · exact .inr ⟨rfl, rfl, rfl⟩
    · exact .inl he

/-- The function of the coroutine returns. -/
theorem Sched.exit_inv {s : Sched} (h : s.Inv) {c : Nat} (hc : s.cur = some c) :
    (s.suspend c .exited).Inv :=
  h.put (c := c) ⟨rfl, rfl⟩ hc rfl (fun _ => rfl) (fun _ he => .inl he) (fun _ he => .inl he)
    (fun _ he => .inl he) h.fds (fun _ he => he) rfl

/-- A failed assertion in `add_event_wait_epoll` stops the process while the coroutine runs. -/
theorem Sched.abort_inv {s : Sched} (h : s.Inv) {c : Nat} (hc : s.cur = some c) (fd : Int) :
    Sched.Inv { s.setCo c { s.co c with waitFd := fd } with aborted := true } := by
  have hstatus : ∀ d, ((s.setCo c { s.co c with waitFd := fd }).co d).status = (s.co d).status := by
    intro d
    show (Function.update s.co c _ d).status = _
    by_cases hd : d = c
    · subst hd
      rw [Function.update_self]
    · rw [Function.update_of_ne hd]
  obtain ⟨-, -, hepoll⟩ := h.nowhere (.inl hc)
  refine ⟨fun d => ?_, fun d hd => ?_, fun e he => ?_, fun e he => ?_, h.fds, fun d hd => ?_,
    h.events⟩
  · show s.places d = if d < s.cnt ∧ s.cur ≠ some d ∧
      ((s.setCo c { s.co c with waitFd := fd }).co d).status ≠ .exited then 1 else 0
    rw [hstatus]
    exact h.places d
  · exact (hstatus d).trans (h.ready d hd)
  · exact (hstatus e.2).trans (h.sleeping e he)
  · refine ⟨(hstatus e.2).trans (h.waiting e he).1, ?_⟩
    show (Function.update s.co c _ e.2).waitFd = e.1
    rw [Function.update_of_ne (hepoll e he)]
    exact (h.waiting e he).2
  · obtain ⟨hlt, hrun⟩ := h.cur d hd
    exact ⟨hlt, (hstatus d).trans hrun⟩

/-- Every step that keeps the registrations keeps the invariant. -/
theorem Sched.step_inv (s : Sched) (act : CoAct) (s' : Sched) (h : s.Inv)
    (hok : StaysRegistered s act) (hs : s.step act = some s') : s'.Inv := by
  unfold step at hs
  split at hs
  case isTrue => cases hs
  case isFalse =>
  cases act with
  | schedule now =>
    simp only [Option.ite_none_right_eq_some, Option.some.injEq] at hs
    obtain ⟨⟨hidle, -⟩, rfl⟩ := hs
    exact scheduleSleep_inv h hidle now
  | ready =>
    simp only [Option.ite_none_right_eq_some, Option.some.injEq] at hs
    obtain ⟨⟨hidle, -⟩, rfl⟩ := hs
    exact scheduleReady_inv h hidle
  | poll evs =>
    simp only [Option.ite_none_right_eq_some, Option.some.injEq] at hs
    obtain ⟨⟨-, -, -, hnodup, hmem⟩, rfl⟩ := hs
    exact h.goOn (by rintro _ ⟨⟩; exact ⟨hnodup, hmem⟩)
  | event =>
    simp only at hs
    split at hs
    · rename_i evs hidle hphase
      obtain rfl := (Option.some.inj hs).symm
      exact scheduleEvent_inv h hidle hphase (hok.1 rfl)
    · cases hs
  | create =>
    simp only [Option.ite_none_right_eq_some, Option.some.injEq] at hs
    obtain ⟨-, rfl⟩ := hs
    exact create_inv h
  | close fd =>
    simp only [Option.ite_none_right_eq_some, Option.some.injEq] at hs
    obtain ⟨-, rfl⟩ := hs
    rw [epollDel_of_notMem (hok.2 fd rfl)]
    exact h
  | yield =>
    obtain ⟨c, hc, rfl⟩ := Option.map_eq_some_iff.mp hs
    exact yield_inv h hc
  | msleep now ms =>
    obtain ⟨c, hc, rfl⟩ := Option.map_eq_some_iff.mp hs
    exact msleep_inv h hc (now + ms)
  | wait fd =>
    obtain ⟨c, hc, rfl⟩ := Option.map_eq_some_iff.mp hs
    split
    · exact abort_inv h hc fd
    · rename_i hfree
      exact wait_inv h hc hfree
  | exit =>
    obtain ⟨c, hc, rfl⟩ := Option.map_eq_some_iff.mp hs
    exact exit_inv h hc

theorem Sched.start_inv : Sched.start.Inv := by
  refine ⟨fun c => ?_, fun c hc => ?_, fun e he => ?_, fun e he => ?_, List.nodup_nil, ?_, ?_⟩
  · exact (if_neg fun hno => Nat.not_lt_zero _ hno.1).symm
  · cases hc
  · cases he
  · cases he
  · rintro c ⟨⟩
  · rintro evs ⟨⟩

/-- **No coroutine is lost.** In every run in which no EPOLLERR comes up and no descriptor is closed
on which a coroutine waits: whenever the scheduler is in control, every coroutine that has not
exited is in exactly one of the ready list, the sleep tree and the interest list, and there once;
one that has exited is in none. -/
theorem no_coroutine_lost (acts : List CoAct) (s : Sched)
    (hrun : run Sched.step Sched.start acts = some s)
    (hok : Meets Sched.step StaysRegistered Sched.start acts) (hidle : s.cur = none) (c : Nat)
    (hc : c < s.cnt) :
    s.readyList.count c + (s.sleepTree.map Prod.snd).count c + (s.epoll.map Prod.snd).count c =
      if (s.co c).status = .exited then 0 else 1 := by
  have hinv : s.Inv := run_invariant Sched.step_inv acts _ s Sched.start_inv hok hrun
  have hplaces := hinv.places c
  rw [hidle] at hplaces
  simp only [hc, true_and, ne_eq, reduceCtorEq, not_false_eq_true, ite_not] at hplaces
  exact hplaces

/-- A server that waits for a client, a client that sleeps, and one that comes and goes. -/
theorem no_coroutine_lost_three :
    ∃ s, run Sched.step Sched.start [.create, .create, .create, .schedule 0, .ready, .wait 5,
        .poll [], .event, .schedule 1, .ready, .msleep 1 10, .poll [⟨5, 0, false⟩], .event, .yield,
        .event, .schedule 11, .exit, .ready, .exit, .poll [], .event] = some s ∧
      s.readyList.count 0 + (s.sleepTree.map Prod.snd).count 0 +
        (s.epoll.map Prod.snd).count 0 = 1 ∧
      s.readyList.count 1 + (s.sleepTree.map Prod.snd).count 1 +
        (s.epoll.map Prod.snd).count 1 = 0 := by
  obtain ⟨s, hrun, hidle, hcnt, hstatus, hexited⟩ : ∃ s, run Sched.step Sched.start [.create,
        .create, .create, .schedule 0, .ready, .wait 5, .poll [], .event, .schedule 1, .ready,
        .msleep 1 10, .poll [⟨5, 0, false⟩], .event, .yield, .event, .schedule 11, .exit, .ready,
        .exit, .poll [], .event] = some s ∧ s.cur = none ∧ s.cnt = 3 ∧
      (s.co 0).status = .ready ∧ (s.co 1).status = .exited := ⟨_, rfl, rfl, rfl, rfl, rfl⟩
  have hplaced := no_coroutine_lost _ s hrun (by decide) hidle
  have h0 := hplaced 0 (by omega)
  have h1 := hplaced 1 (by omega)
  rw [hstatus] at h0
  rw [hexited] at h1
  exact ⟨s, hrun, h0, h1⟩

/-- The peer resets the connection a coroutine receives from: EPOLLERR is reported, and the
coroutine, which has not exited, is nowhere. -/
theorem coroutine_lost :
    ∃ s, run Sched.step Sched.start [.create, .schedule 0, .ready, .wait 5, .poll [⟨5, 0, true⟩],
        .event, .event] = some s ∧
      s.cur = none ∧ 0 < s.cnt ∧ (s.co 0).status = .waiting ∧
      s.readyList.count 0 + (s.sleepTree.map Prod.snd).count 0 +
        (s.epoll.map Prod.snd).count 0 = 0 :=
  ⟨_, rfl, rfl, by decide, rfl, rfl⟩

end Mgx
