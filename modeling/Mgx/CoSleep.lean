import Mathlib.Data.Int.Order.Basic
import Mgx.Coroutine
import Mgx.Lib.Multimap

/-
  Sleeping coroutines.

  `msleep` puts the coroutine into the sleep tree under its deadline and suspends;
  `schedule` resumes the coroutine of the first entry once that is due, and it is the
  coroutine itself that erases the first entry of the tree, when it goes on. Whether
  that entry is its own depends on who was resumed, and on where the tree put it.

  Correspondence (C++ ↔ Lean), `misc/mgx_coroutine*.cpp`:
    the scheduler and the coroutines                        ↔ `Sched`
    the calls of `msleep` from the switch to the scheduler
      to the switch back                                    ↔ `SleepSched.calls`, a history

  A call has returned when its coroutine runs again, whichever part of `schedule`
  resumed it. `calls` is in the order in which the coroutines went to sleep. Nothing is
  assumed of the clock, nor of what the other coroutines do.

  What is proved: `msleep_wakes_right`. The tree has one entry for each call that has
  not returned and no other. A call returns only when its deadline is not after the
  clock; it is the oldest of those with the least deadline, and the entry erased is the
  one it made.
-/
namespace Mgx
open Runs

/-- A call of `msleep`: the coroutine, and the time it sleeps to. -/
structure SleepCall where
  co : Nat
  deadline : Int
  deriving DecidableEq, Repr

/-- What the call puts into the sleep tree. -/
def SleepCall.entry (x : SleepCall) : Int × Nat := (x.deadline, x.co)

/-- The scheduler, with the calls of `msleep` that have not returned. -/
structure SleepSched where
  sched : Sched
  calls : List SleepCall

/-- The call a step makes while `cur` runs. -/
def CoAct.sleepCall (act : CoAct) (cur : Option Nat) : List SleepCall :=
  match act with
  | .msleep now ms => cur.toList.map fun c => ⟨c, now + ms⟩
  | _ => []

/-- A step of the scheduler. The calls of a coroutine that then runs have returned. -/
def SleepSched.step (s : SleepSched) (act : CoAct) : Option SleepSched :=
  (s.sched.step act).map fun sched =>
    ⟨sched, (s.calls ++ act.sleepCall s.sched.cur).filter fun x => sched.cur ≠ some x.co⟩

/-- Before the first coroutine. -/
def SleepSched.start : SleepSched := ⟨Sched.start, []⟩

/-- The sleep tree is a multimap. -/
theorem insertSleep_eq (ms : Int) (c : Nat) : ∀ t : List (Int × Nat),
    insertSleep ms c t = Multimap.emplace Prod.fst (ms, c) t
  | [] => rfl
  | e :: t => by
    rw [insertSleep, insertSleep_eq ms c t, Multimap.emplace, Multimap.emplace]
    by_cases he : e.1 ≤ ms
    · rw [if_pos he, List.takeWhile_cons_of_pos (by simpa using he),
        List.dropWhile_cons_of_pos (by simpa using he)]
      rfl
    · rw [if_neg he, List.takeWhile_cons_of_neg (by simpa using he),
        List.dropWhile_cons_of_neg (by simpa using he)]
      rfl

/-- The tree has the entries of the calls, by deadline and age. A coroutine is in a call exactly when
its status says that it sleeps; those in the ready list, in the interest list and in the events to
come are not, and there once. -/
structure SleepSched.Inv (s : SleepSched) : Prop where
  tree : Multimap.Holds Prod.fst (s.calls.map SleepCall.entry) s.sched.sleepTree
  callers : (s.calls.map SleepCall.co).Nodup
  sleeping : ∀ c, (s.sched.co c).status = .sleeping ↔ c ∈ s.calls.map SleepCall.co
  fresh : ∀ c, s.sched.cnt ≤ c → (s.sched.co c).status = .ready
  readyOnce : s.sched.readyList.Nodup
  ready : ∀ c ∈ s.sched.readyList, c < s.sched.cnt ∧ (s.sched.co c).status = .ready
  fds : (s.sched.epoll.map Prod.fst).Nodup
  waiting : ∀ e ∈ s.sched.epoll,
    (s.sched.co e.2).status = .waiting ∧ (s.sched.co e.2).waitFd = e.1
  cur : ∀ c, s.sched.cur = some c → (s.sched.co c).status = .running
  events : ∀ evs, s.sched.phase = .atEvents evs →
    (evs.map CoEvent.co).Nodup ∧ ∀ e ∈ evs, (s.sched.co e.co).status = .waiting

section
variable {s : SleepSched} {sched : Sched} {c : Nat} {x : Co}

theorem SleepSched.Inv.lt_cnt (h : s.Inv) (hc : (s.sched.co c).status ≠ .ready) :
    c < s.sched.cnt := by
  by_contra hge
  exact hc (h.fresh c (Nat.le_of_not_lt hge))

/-- When no coroutine that sleeps is resumed, no call returns. -/
theorem SleepSched.Inv.noReturn (h : s.Inv) (sched : Sched)
    (hcur : ∀ c, sched.cur = some c → (s.sched.co c).status ≠ .sleeping) :
    (s.calls.filter fun x => sched.cur ≠ some x.co) = s.calls := by
  refine List.filter_eq_self.mpr fun x hx => decide_eq_true fun hxc => ?_
  exact hcur x.co hxc ((h.sleeping x.co).mpr (List.mem_map_of_mem hx))

/-- A coroutine is resumed and runs: it is taken from the one place it was in. -/
theorem SleepSched.Inv.take (h : s.Inv) (ht : s.sched.Touches sched c x)
    (hx : x.status = .running) (hlt : c < s.sched.cnt) (hcur : sched.cur = some c)
    (hready : sched.readyList.Sublist s.sched.readyList) (hready' : c ∉ sched.readyList)
    (hepoll : sched.epoll.Sublist s.sched.epoll) (hepoll' : ∀ e ∈ sched.epoll, e.2 ≠ c)
    (htree : Multimap.Holds Prod.fst
      ((s.calls.filter fun y => sched.cur ≠ some y.co).map SleepCall.entry) sched.sleepTree)
    (hevents : ∀ evs, sched.phase = .atEvents evs → (evs.map CoEvent.co).Nodup ∧
      ∀ e ∈ evs, e.co ≠ c ∧ (s.sched.co e.co).status = .waiting) :
    SleepSched.Inv ⟨sched, s.calls.filter fun y => sched.cur ≠ some y.co⟩ := by
  refine ⟨htree, h.callers.sublist (List.filter_sublist.map _), fun d => ?_, fun d hd => ?_,
    h.readyOnce.sublist hready, fun d hd => ?_, h.fds.sublist (hepoll.map _), fun e he => ?_,
    fun d hd => ?_, fun evs hevs => ?_⟩
  · have hmem : d ∈ (s.calls.filter fun y => sched.cur ≠ some y.co).map SleepCall.co ↔
        d ∈ s.calls.map SleepCall.co ∧ d ≠ c := by
      simp only [List.mem_map, List.mem_filter, decide_eq_true_eq, hcur, ne_eq, Option.some.injEq]
      constructor
      · rintro ⟨y, ⟨hy, hyc⟩, rfl⟩
        exact ⟨⟨y, hy, rfl⟩, Ne.symm hyc⟩
      · rintro ⟨⟨y, hy, rfl⟩, hyc⟩
        exact ⟨y, ⟨hy, Ne.symm hyc⟩, rfl⟩
    show _ ↔ d ∈ (s.calls.filter fun y => sched.cur ≠ some y.co).map SleepCall.co
    rw [hmem]
    by_cases hd : d = c
    · subst hd
      rw [ht.self, hx]
      simp
    · rw [ht.other hd, h.sleeping d]
      exact (and_iff_left hd).symm
  · rw [ht.cnt] at hd
    rw [ht.other (by omega)]
    exact h.fresh d hd
  · rw [ht.cnt, ht.other (fun hdc => hready' (hdc ▸ hd))]
    exact h.ready d (hready.subset hd)
  · rw [ht.other (hepoll' e he)]
    exact h.waiting e (hepoll.subset he)
  · obtain rfl := Option.some.inj (hcur.symm.trans hd)
    rw [ht.self, hx]
  · obtain ⟨hnodup, hwaiting⟩ := hevents evs hevs
    refine ⟨hnodup, fun e he => ?_⟩
    rw [ht.other (hwaiting e he).1]
    exact (hwaiting e he).2

/-- The running coroutine suspends: it comes into the place its new status says. -/
theorem SleepSched.Inv.put {calls : List SleepCall} (h : s.Inv) (ht : s.sched.Touches sched c x)
    (hc : s.sched.cur = some c) (hcur : sched.cur = none)
    (hready : ∀ d ∈ sched.readyList, d ∈ s.sched.readyList ∨ d = c ∧ x.status = .ready)
    (hreadyOnce : sched.readyList.Nodup)
    (hepoll : ∀ e ∈ sched.epoll,
      e ∈ s.sched.epoll ∨ e.2 = c ∧ x.status = .waiting ∧ x.waitFd = e.1)
    (hfds : (sched.epoll.map Prod.fst).Nodup)
    (htree : Multimap.Holds Prod.fst (calls.map SleepCall.entry) sched.sleepTree)
    (hcallers : (calls.map SleepCall.co).Nodup)
    (hcalls : ∀ d, d ∈ calls.map SleepCall.co ↔
      d ∈ s.calls.map SleepCall.co ∨ d = c ∧ x.status = .sleeping)
    (hphase : sched.phase = s.sched.phase) : SleepSched.Inv ⟨sched, calls⟩ := by
  have hrun := h.cur c hc
  have hlt : c < s.sched.cnt := h.lt_cnt (by rw [hrun]; decide)
  have hne : ∀ d, (s.sched.co d).status ≠ .running → d ≠ c :=
    fun d hd hdc => hd (hdc ▸ hrun)
  refine ⟨htree, hcallers, fun d => ?_, fun d hd => ?_, hreadyOnce, fun d hd => ?_, hfds,
    fun e he => ?_, fun d hd => ?_, fun evs hevs => ?_⟩
  · show _ ↔ d ∈ calls.map SleepCall.co
    rw [hcalls d]
    by_cases hd : d = c
    · subst hd
      have hnot : d ∉ s.calls.map SleepCall.co := by
        rw [← h.sleeping d, hrun]
        decide
      rw [ht.self]
      simp [hnot]
    · rw [ht.other hd, h.sleeping d]
      simp [hd]
  · rw [ht.cnt] at hd
    rw [ht.other (by omega)]
    exact h.fresh d hd
  · rw [ht.cnt]
    rcases hready d hd with hd | ⟨rfl, hx⟩
    · rw [ht.other (hne d (by rw [(h.ready d hd).2]; decide))]
      exact h.ready d hd
    · rw [ht.self]
      exact ⟨hlt, hx⟩
  · rcases hepoll e he with he | ⟨rfl, hx, hfd⟩
    · rw [ht.other (hne e.2 (by rw [(h.waiting e he).1]; decide))]
      exact h.waiting e he
    · rw [ht.self]
      exact ⟨hx, hfd⟩
  · rw [hcur] at hd
    cases hd
  · obtain ⟨hnodup, hwaiting⟩ := h.events evs (hphase ▸ hevs)
    refine ⟨hnodup, fun e he => ?_⟩
    rw [ht.other (hne e.co (by rw [hwaiting e he]; decide))]
    exact hwaiting e he

/-- Nobody is resumed and nobody suspends; registrations may go. -/
theorem SleepSched.Inv.goOn {phase : SchedAt} {epoll : List (Int × Nat)} (h : s.Inv)
    (hepoll : epoll.Sublist s.sched.epoll)
    (hevents : ∀ evs, phase = .atEvents evs → (evs.map CoEvent.co).Nodup ∧
      ∀ e ∈ evs, (s.sched.co e.co).status = .waiting) :
    SleepSched.Inv ⟨{ s.sched with phase := phase, epoll := epoll }, s.calls⟩ :=
  ⟨h.tree, h.callers, h.sleeping, h.fresh, h.readyOnce, h.ready, h.fds.sublist (hepoll.map _),
    fun e he => h.waiting e (hepoll.subset he), h.cur, hevents⟩

end

/-! ## The scheduler -/

section
variable {s : SleepSched}

/-- The call whose entry is the first of the tree: the oldest of those with the least deadline. -/
theorem SleepSched.Inv.first (h : s.Inv) {ms : Int} {c : Nat} {rest : List (Int × Nat)}
    (htree : s.sched.sleepTree = (ms, c) :: rest) : ∃ pre x post, s.calls = pre ++ x :: post ∧
      x.entry = (ms, c) ∧ (∀ y ∈ pre, x.deadline < y.deadline) ∧
      (∀ y ∈ post, x.deadline ≤ y.deadline) ∧
      (s.calls.filter fun y => some c ≠ some y.co) = pre ++ post ∧
      Multimap.Holds Prod.fst ((pre ++ post).map SleepCall.entry) rest := by
  have hall := h.tree
  rw [htree] at hall
  obtain ⟨pre', post', hsplit, hpre, hpost, hrest⟩ := hall.first
  obtain ⟨pre, tail, hcalls, rfl, htail⟩ := List.map_eq_append_iff.mp hsplit
  obtain ⟨x, post, rfl, hx, rfl⟩ := List.map_eq_cons_iff.mp htail
  have hdeadline : x.deadline = ms := congrArg Prod.fst hx
  have hco : x.co = c := congrArg Prod.snd hx
  refine ⟨pre, x, post, hcalls, hx, fun y hy => ?_, fun y hy => ?_, ?_, ?_⟩
  · rw [hdeadline]
    exact hpre y.entry (List.mem_map_of_mem hy)
  · rw [hdeadline]
    exact hpost y.entry (List.mem_map_of_mem hy)
  · -- no other call is of this coroutine
    have hcallers := h.callers
    rw [hcalls, List.map_append, List.map_cons, List.nodup_middle, List.nodup_cons,
      ← List.map_append] at hcallers
    have hothers : ∀ y ∈ pre ++ post, decide (some c ≠ some y.co) = true := by
      intro y hy
      refine decide_eq_true fun hyc => hcallers.1 ?_
      rw [hco, Option.some.inj hyc]
      exact List.mem_map_of_mem hy
    rw [hcalls, List.filter_append, List.filter_cons_of_neg (by simp [hco]), ← List.filter_append]
    exact List.filter_eq_self.mpr hothers
  · rw [List.map_append]
    exact hrest

theorem SleepSched.Inv.scheduleSleep (h : s.Inv) (hidle : s.sched.cur = none) (now : Int) :
    SleepSched.Inv ⟨s.sched.scheduleSleep now,
      s.calls.filter fun y => (s.sched.scheduleSleep now).cur ≠ some y.co⟩ := by
  have hgoOn : SleepSched.Inv ⟨{ s.sched with phase := .atReady },
      s.calls.filter fun y => s.sched.cur ≠ some y.co⟩ := by
    rw [h.noReturn _ (by rw [hidle]; rintro d ⟨⟩)]
    exact h.goOn (.refl _) (by rintro evs ⟨⟩)
  unfold Sched.scheduleSleep
  split
  · exact hgoOn
  · rename_i ms c rest htree
    split
    · obtain ⟨pre, x, post, hcalls, hx, -, -, hreturn, hrest⟩ := h.first htree
      have hstatus : (s.sched.co c).status = .sleeping := by
        rw [h.sleeping c, ← show x.co = c from congrArg Prod.snd hx, hcalls]
        exact List.mem_map_of_mem (by simp)
      simp only [Sched.resume, hstatus, htree, List.tail_cons]
      refine h.take (c := c) ⟨rfl, rfl⟩ rfl (h.lt_cnt (by rw [hstatus]; decide)) rfl (.refl _)
        (fun hc => ?_) (.refl _) (fun e he hec => ?_) ?_ (by rintro evs ⟨⟩)
      · have hready := (h.ready c hc).2
        rw [hstatus] at hready
        cases hready
      · have hwaiting := (h.waiting e he).1
        rw [hec, hstatus] at hwaiting
        cases hwaiting
      · show Multimap.Holds Prod.fst
          ((s.calls.filter fun y => some c ≠ some y.co).map SleepCall.entry) rest
        rw [hreturn]
        exact hrest
    · exact hgoOn

theorem SleepSched.Inv.scheduleReady (h : s.Inv) (hidle : s.sched.cur = none) :
    SleepSched.Inv ⟨s.sched.scheduleReady,
      s.calls.filter fun y => s.sched.scheduleReady.cur ≠ some y.co⟩ := by
  unfold Sched.scheduleReady
  split
  · show SleepSched.Inv ⟨_, s.calls.filter fun y => s.sched.cur ≠ some y.co⟩
    rw [h.noReturn _ (by rw [hidle]; rintro d ⟨⟩)]
    exact h.goOn (.refl _) (by rintro evs ⟨⟩)
  · rename_i c rest hlist
    obtain ⟨hlt, hstatus⟩ := h.ready c (by rw [hlist]; exact List.mem_cons_self)
    have honce := h.readyOnce
    rw [hlist] at honce
    simp only [Sched.resume, hstatus]
    refine h.take (c := c) ⟨rfl, rfl⟩ rfl hlt rfl ?_ (List.nodup_cons.mp honce).1 (.refl _)
      (fun e he hec => ?_) ?_ (by rintro evs ⟨⟩)
    · rw [hlist]
      exact List.sublist_cons_self _ _
    · have hwaiting := (h.waiting e he).1
      rw [hec, hstatus] at hwaiting
      cases hwaiting
    · rw [h.noReturn _ (by rintro d ⟨⟩; rw [hstatus]; decide)]
      exact h.tree

/-- Deleting the registration a coroutine waits for leaves it none. -/
theorem SleepSched.Inv.epollDel_ne (h : s.Inv) (c : Nat) :
    ∀ e ∈ epollDel s.sched.epoll (s.sched.co c).waitFd, e.2 ≠ c := by
  rintro e he rfl
  have hfd := (h.waiting e (KeyTable.remove_sublist .. |>.subset he)).2
  have hkeys : e.1 ∈ (s.sched.epoll.map Prod.fst).erase (s.sched.co e.2).waitFd := by
    rw [List.erase_eq_eraseP', List.eraseP_map]
    exact List.mem_map_of_mem he
  rw [hfd] at hkeys
  exact (h.fds.mem_erase_iff.mp hkeys).1 rfl

theorem SleepSched.Inv.scheduleEvent (h : s.Inv) (hidle : s.sched.cur = none) {evs : List CoEvent}
    (hphase : s.sched.phase = .atEvents evs) : SleepSched.Inv ⟨s.sched.scheduleEvent evs,
      s.calls.filter fun y => (s.sched.scheduleEvent evs).cur ≠ some y.co⟩ := by
  obtain ⟨hnodup, hwaiting⟩ := h.events evs hphase
  cases evs with
  | nil =>
    show SleepSched.Inv ⟨_, s.calls.filter fun y => s.sched.cur ≠ some y.co⟩
    rw [h.noReturn _ (by rw [hidle]; rintro d ⟨⟩)]
    exact h.goOn (.refl _) (by rintro evs ⟨⟩)
  | cons e rest =>
    obtain ⟨hne, hnodup⟩ := List.nodup_cons.mp hnodup
    have hrest : ∀ x ∈ rest, (s.sched.co x.co).status = .waiting :=
      fun x hx => hwaiting x (List.mem_cons_of_mem e hx)
    by_cases herr : e.err = true
    · rw [Sched.scheduleEvent, if_pos herr]
      show SleepSched.Inv ⟨_, s.calls.filter fun y => s.sched.cur ≠ some y.co⟩
      rw [h.noReturn _ (by rw [hidle]; rintro d ⟨⟩)]
      exact h.goOn (KeyTable.remove_sublist ..) (by rintro evs ⟨⟩; exact ⟨hnodup, hrest⟩)
    · have hstatus := hwaiting e List.mem_cons_self
      have hlt := h.lt_cnt (c := e.co) (by rw [hstatus]; decide)
      have hready : e.co ∉ s.sched.readyList := by
        intro hmem
        have hready := (h.ready e.co hmem).2
        rw [hstatus] at hready
        cases hready
      have htree : Multimap.Holds Prod.fst
          ((s.calls.filter fun y => some e.co ≠ some y.co).map SleepCall.entry)
          s.sched.sleepTree := by
        have hcur : ∀ d, some e.co = some d → (s.sched.co d).status ≠ .sleeping := by
          rintro d ⟨⟩
          rw [hstatus]
          decide
        have hsame : s.calls.filter (fun y => some e.co ≠ some y.co) = s.calls :=
          h.noReturn { s.sched with cur := some e.co } hcur
        rw [hsame]
        exact h.tree
      have hevents : ∀ evs, SchedAt.atEvents rest = .atEvents evs → (evs.map CoEvent.co).Nodup ∧
          ∀ x ∈ evs, x.co ≠ e.co ∧ (s.sched.co x.co).status = .waiting := by
        rintro evs ⟨⟩
        refine ⟨hnodup, fun x hx => ⟨fun hxe => hne ?_, hrest x hx⟩⟩
        rw [← hxe]
        exact List.mem_map_of_mem hx
      rw [Sched.scheduleEvent, if_neg herr]
      simp only [Sched.resume, hstatus]
      split
      · exact h.take (c := e.co) ⟨rfl, rfl⟩ rfl hlt rfl (.refl _) hready
          (KeyTable.remove_sublist ..) (h.epollDel_ne e.co) htree hevents
      · next hgone =>
        -- nothing is registered for it, and the process aborts
        refine h.take (c := e.co) ⟨rfl, rfl⟩ rfl hlt rfl (.refl _) hready (.refl _)
          (fun x hx hxe => hgone ?_) htree hevents
        rw [← hxe, (h.waiting x hx).2]
        exact List.mem_map_of_mem hx

/-- What `epoll_wait` reports is of coroutines that wait, each once. -/
theorem SleepSched.Inv.poll (h : s.Inv) {evs : List CoEvent} (hevs : s.sched.Reported evs) :
    SleepSched.Inv ⟨{ s.sched with phase := .atEvents evs }, s.calls⟩ := by
  obtain ⟨-, hnodup, hmem⟩ := hevs
  refine h.goOn (.refl _) ?_
  rintro _ ⟨⟩
  refine ⟨?_, fun e he => (h.waiting _ (hmem e he)).1⟩
  have hfd : evs.map CoEvent.fd = (evs.map CoEvent.co).map fun c => (s.sched.co c).waitFd := by
    rw [List.map_map]
    exact List.map_congr_left fun e he => ((h.waiting _ (hmem e he)).2).symm
  rw [hfd] at hnodup
  exact hnodup.of_map

/-! ## The coroutines -/

/-- A coroutine that runs is in none of the places. -/
theorem SleepSched.Inv.nowhere (h : s.Inv) {c : Nat} (hc : s.sched.cur = some c) :
    c ∉ s.sched.readyList ∧ c ∉ s.calls.map SleepCall.co := by
  have hrun := h.cur c hc
  constructor
  · intro hmem
    have hready := (h.ready c hmem).2
    rw [hrun] at hready
    cases hready
  · rw [← h.sleeping c, hrun]
    decide

/-- A new coroutine comes into the ready list. -/
theorem SleepSched.Inv.create (h : s.Inv) :
    SleepSched.Inv ⟨{ s.sched.setCo s.sched.cnt ⟨.ready, 0⟩ with
      cnt := s.sched.cnt + 1, readyList := s.sched.readyList ++ [s.sched.cnt] }, s.calls⟩ := by
  have hstatus : ∀ d, ((s.sched.setCo s.sched.cnt ⟨.ready, 0⟩).co d).status =
      (s.sched.co d).status := by
    intro d
    show (Function.update s.sched.co s.sched.cnt ⟨.ready, 0⟩ d).status = _
    by_cases hd : d = s.sched.cnt
    · subst hd
      rw [Function.update_self, h.fresh _ (Nat.le_refl _)]
    · rw [Function.update_of_ne hd]
  have hnew : s.sched.cnt ∉ s.sched.readyList :=
    fun hmem => Nat.lt_irrefl _ (h.ready _ hmem).1
  refine ⟨h.tree, h.callers, fun d => ?_, fun d hd => ?_, ?_, fun d hd => ?_, h.fds,
    fun e he => ?_, fun d hd => ?_, fun evs hevs => ?_⟩
  · exact (Iff.of_eq (congrArg (· = CoStatus.sleeping) (hstatus d))).trans (h.sleeping d)
  · exact (hstatus d).trans (h.fresh d (Nat.le_of_succ_le hd))
  · show (s.sched.readyList ++ [s.sched.cnt]).Nodup
    refine List.nodup_append.mpr ⟨h.readyOnce, List.nodup_singleton _, fun d hd e he hde => ?_⟩
    rw [hde, List.mem_singleton.mp he] at hd
    exact hnew hd
  · show d < s.sched.cnt + 1 ∧ _
    rcases List.mem_append.mp hd with hd | hd
    · exact ⟨Nat.lt_succ_of_lt (h.ready d hd).1, (hstatus d).trans (h.ready d hd).2⟩
    · obtain rfl := List.mem_singleton.mp hd
      exact ⟨Nat.lt_succ_self _, (hstatus _).trans (h.fresh _ (Nat.le_refl _))⟩
  · refine ⟨(hstatus e.2).trans (h.waiting e he).1, ?_⟩
    -- who waits is not the new one
    have hne : e.2 ≠ s.sched.cnt :=
      Nat.ne_of_lt (h.lt_cnt (by rw [(h.waiting e he).1]; decide))
    show (Function.update s.sched.co s.sched.cnt ⟨.ready, 0⟩ e.2).waitFd = e.1
    rw [Function.update_of_ne hne]
    exact (h.waiting e he).2
  · exact (hstatus d).trans (h.cur d hd)
  · obtain ⟨hnodup, hwaiting⟩ := h.events evs hevs
    exact ⟨hnodup, fun e he => (hstatus e.co).trans (hwaiting e he)⟩

theorem SleepSched.Inv.yield (h : s.Inv) {c : Nat} (hc : s.sched.cur = some c) :
    SleepSched.Inv ⟨{ s.sched.suspend c .ready with readyList := s.sched.readyList ++ [c] },
      s.calls⟩ := by
  refine h.put (c := c) ⟨rfl, rfl⟩ hc rfl (fun d hd => ?_) ?_ (fun _ he => .inl he) h.fds h.tree
    h.callers (fun d => by simp) rfl
  · rcases List.mem_append.mp hd with hd | hd
    · exact .inl hd
    · exact .inr ⟨List.mem_singleton.mp hd, rfl⟩
  · refine List.nodup_append.mpr ⟨h.readyOnce, List.nodup_singleton _, fun d hd e he hde => ?_⟩
    rw [hde, List.mem_singleton.mp he] at hd
    exact (h.nowhere hc).1 hd

theorem SleepSched.Inv.msleep (h : s.Inv) {c : Nat} (hc : s.sched.cur = some c) (ms : Int) :
    SleepSched.Inv ⟨{ s.sched.suspend c .sleeping with
      sleepTree := insertSleep ms c s.sched.sleepTree }, s.calls ++ [⟨c, ms⟩]⟩ := by
  refine h.put (c := c) ⟨rfl, rfl⟩ hc rfl (fun _ hd => .inl hd) h.readyOnce (fun _ he => .inl he)
    h.fds ?_ ?_ (fun d => by simp) rfl
  · show Multimap.Holds Prod.fst _ (insertSleep ms c s.sched.sleepTree)
    rw [insertSleep_eq, List.map_append]
    exact h.tree.emplace (ms, c)
  · rw [List.map_append]
    refine List.nodup_append.mpr ⟨h.callers, List.nodup_singleton _, fun d hd e he hde => ?_⟩
    rw [hde, List.mem_singleton.mp he] at hd
    exact (h.nowhere hc).2 hd

theorem SleepSched.Inv.wait (h : s.Inv) {c : Nat} (hc : s.sched.cur = some c) {fd : Int}
    (hfree : fd ∉ s.sched.epoll.map Prod.fst) :
    SleepSched.Inv ⟨{ (s.sched.setCo c { s.sched.co c with waitFd := fd }).suspend c .waiting with
      epoll := (fd, c) :: s.sched.epoll }, s.calls⟩ := by
  refine h.put (c := c) (x := ⟨.waiting, fd⟩) ⟨?_, rfl⟩ hc rfl (fun _ hd => .inl hd) h.readyOnce
    (fun e he => ?_) (List.nodup_cons.mpr ⟨hfree, h.fds⟩) h.tree h.callers (fun d => by simp) rfl
  · show Function.update (Function.update s.sched.co c _) c _ = _
    rw [Function.update_idem]
    show Function.update s.sched.co c
      { Function.update s.sched.co c _ c with status := .waiting } = _
    rw [Function.update_self]
  · rcases List.mem_cons.mp he with rfl | he
    · exact .inr ⟨rfl, rfl, rfl⟩
    · exact .inl he

theorem SleepSched.Inv.exit (h : s.Inv) {c : Nat} (hc : s.sched.cur = some c) :
    SleepSched.Inv ⟨s.sched.suspend c .exited, s.calls⟩ :=
  h.put (c := c) ⟨rfl, rfl⟩ hc rfl (fun _ hd => .inl hd) h.readyOnce (fun _ he => .inl he) h.fds
    h.tree h.callers (fun d => by simp) rfl

/-- A failed assertion in `add_event_wait_epoll`. -/
theorem SleepSched.Inv.abort (h : s.Inv) {c : Nat} (hc : s.sched.cur = some c) (fd : Int) :
    SleepSched.Inv ⟨{ s.sched.setCo c { s.sched.co c with waitFd := fd } with aborted := true },
      s.calls⟩ := by
  have hstatus : ∀ d, ((s.sched.setCo c { s.sched.co c with waitFd := fd }).co d).status =
      (s.sched.co d).status := by
    intro d
    show (Function.update s.sched.co c _ d).status = _
    by_cases hd : d = c
    · subst hd
      rw [Function.update_self]
    · rw [Function.update_of_ne hd]
  refine ⟨h.tree, h.callers, fun d => ?_, fun d hd => ?_, h.readyOnce, fun d hd => ?_, h.fds,
    fun e he => ?_, fun d hd => ?_, fun evs hevs => ?_⟩
  · exact (Iff.of_eq (congrArg (· = CoStatus.sleeping) (hstatus d))).trans (h.sleeping d)
  · exact (hstatus d).trans (h.fresh d hd)
  · exact ⟨(h.ready d hd).1, (hstatus d).trans (h.ready d hd).2⟩
  · refine ⟨(hstatus e.2).trans (h.waiting e he).1, ?_⟩
    have hne : e.2 ≠ c := by
      intro hec
      have hwaiting := (h.waiting e he).1
      rw [hec, h.cur c hc] at hwaiting
      cases hwaiting
    show (Function.update s.sched.co c _ e.2).waitFd = e.1
    rw [Function.update_of_ne hne]
    exact (h.waiting e he).2
  · exact (hstatus d).trans (h.cur d hd)
  · obtain ⟨hnodup, hwaiting⟩ := h.events evs hevs
    exact ⟨hnodup, fun e he => (hstatus e.co).trans (hwaiting e he)⟩

end

/-! ## Runs -/

/-- Every step keeps the invariant. -/
theorem SleepSched.step_inv (s : SleepSched) (act : CoAct) (s' : SleepSched) (h : s.Inv)
    (hs : s.step act = some s') : s'.Inv := by
  obtain ⟨sched, hsched, rfl⟩ := Option.map_eq_some_iff.mp hs
  -- a step that resumes nobody leaves the calls as they are
  have hkept : ∀ {sched : Sched} {calls : List SleepCall}, SleepSched.Inv ⟨sched, calls⟩ →
      SleepSched.Inv ⟨sched, calls.filter fun y => sched.cur ≠ some y.co⟩ := by
    intro sched calls hinv
    have hall := hinv.noReturn sched fun c hc => by rw [hinv.cur c hc]; decide
    simp only at hall
    rwa [hall]
  unfold Sched.step at hsched
  split at hsched
  case isTrue => cases hsched
  case isFalse =>
  cases act with
  | schedule now =>
    simp only [Option.ite_none_right_eq_some, Option.some.injEq] at hsched
    obtain ⟨⟨hidle, -⟩, rfl⟩ := hsched
    simp only [CoAct.sleepCall, List.append_nil]
    exact h.scheduleSleep hidle now
  | ready =>
    simp only [Option.ite_none_right_eq_some, Option.some.injEq] at hsched
    obtain ⟨⟨hidle, -⟩, rfl⟩ := hsched
    simp only [CoAct.sleepCall, List.append_nil]
    exact h.scheduleReady hidle
  | poll evs =>
    simp only [Option.ite_none_right_eq_some, Option.some.injEq] at hsched
    obtain ⟨⟨-, -, hevs⟩, rfl⟩ := hsched
    simp only [CoAct.sleepCall, List.append_nil]
    exact hkept (h.poll hevs)
  | event =>
    simp only at hsched
    split at hsched
    · rename_i evs hidle hphase
      obtain rfl := (Option.some.inj hsched).symm
      simp only [CoAct.sleepCall, List.append_nil]
      exact h.scheduleEvent hidle hphase
    · cases hsched
  | create =>
    simp only [Option.ite_none_right_eq_some, Option.some.injEq] at hsched
    obtain ⟨-, rfl⟩ := hsched
    simp only [CoAct.sleepCall, List.append_nil]
    exact hkept h.create
  | close fd =>
    simp only [Option.ite_none_right_eq_some, Option.some.injEq] at hsched
    obtain ⟨-, rfl⟩ := hsched
    simp only [CoAct.sleepCall, List.append_nil]
    exact hkept (h.goOn (KeyTable.remove_sublist ..) h.events)
  | yield =>
    obtain ⟨c, hc, rfl⟩ := Option.map_eq_some_iff.mp hsched
    simp only [CoAct.sleepCall, List.append_nil]
    exact hkept (h.yield hc)
  | msleep now ms =>
    obtain ⟨c, hc, rfl⟩ := Option.map_eq_some_iff.mp hsched
    rw [hc]
    exact hkept (h.msleep hc (now + ms))
  | wait fd =>
    obtain ⟨c, hc, rfl⟩ := Option.map_eq_some_iff.mp hsched
    simp only [CoAct.sleepCall, List.append_nil]
    split
    · exact hkept (h.abort hc fd)
    · rename_i hfree
      exact hkept (h.wait hc hfree)
  | exit =>
    obtain ⟨c, hc, rfl⟩ := Option.map_eq_some_iff.mp hsched
    simp only [CoAct.sleepCall, List.append_nil]
    exact hkept (h.exit hc)

theorem SleepSched.start_inv : SleepSched.start.Inv := by
  refine ⟨.nil, List.nodup_nil, fun c => ?_, fun _ _ => rfl, List.nodup_nil, fun c hc => ?_,
    List.nodup_nil, fun e he => ?_, ?_, ?_⟩
  · simp [SleepSched.start, Sched.start]
  · cases hc
  · cases he
  · rintro c ⟨⟩
  · rintro evs ⟨⟩

/-- The first part of `schedule` resumes the coroutine of the first entry, when that is due. -/
theorem Sched.scheduleSleep_resumes {s : Sched} {now : Int} {c : Nat}
    (hc : (s.scheduleSleep now).cur = some c) (hruns : s.cur ≠ some c)
    (hsleeps : (s.co c).status = .sleeping) :
    ∃ ms, ms ≤ now ∧ s.sleepTree = (ms, c) :: (s.scheduleSleep now).sleepTree := by
  unfold Sched.scheduleSleep at hc ⊢
  split at hc
  · exact absurd hc hruns
  next ms d rest htree =>
    split at hc
    next hdue =>
      have hcur : some d = some c := by
        simp only [Sched.resume] at hc
        split at hc
        · exact hc
        · split at hc
          · exact hc
          · exact hc
        · exact hc
        · exact hc
        · exact hc
      obtain rfl := Option.some.inj hcur
      refine ⟨ms, hdue, ?_⟩
      rw [htree]
      simp only [if_pos hdue, Sched.resume, hsleeps, List.tail_cons]
    next => exact absurd hc hruns

/-- The second part resumes none that sleeps. -/
theorem SleepSched.Inv.scheduleReady_cur {s : SleepSched} (h : s.Inv) {c : Nat}
    (hc : s.sched.scheduleReady.cur = some c) (hruns : s.sched.cur ≠ some c) :
    (s.sched.co c).status ≠ .sleeping := by
  unfold Sched.scheduleReady at hc
  split at hc
  · exact absurd hc hruns
  next d rest hlist =>
    have hready := (h.ready d (by rw [hlist]; exact List.mem_cons_self)).2
    simp only [Sched.resume, hready] at hc
    obtain rfl := Option.some.inj hc
    rw [hready]
    exact CoStatus.noConfusion

/-- An event resumes none that sleeps. -/
theorem SleepSched.Inv.scheduleEvent_cur {s : SleepSched} (h : s.Inv) {evs : List CoEvent}
    (hphase : s.sched.phase = .atEvents evs) {c : Nat}
    (hc : (s.sched.scheduleEvent evs).cur = some c) (hruns : s.sched.cur ≠ some c) :
    (s.sched.co c).status ≠ .sleeping := by
  obtain ⟨-, hwaiting⟩ := h.events evs hphase
  cases evs with
  | nil => exact absurd hc hruns
  | cons e rest =>
    have hstatus := hwaiting e List.mem_cons_self
    by_cases herr : e.err = true
    · rw [Sched.scheduleEvent, if_pos herr] at hc
      exact absurd hc hruns
    · rw [Sched.scheduleEvent, if_neg herr] at hc
      simp only [Sched.resume, hstatus] at hc
      have hcur : some e.co = some c := by
        split at hc
        · exact hc
        · exact hc
      obtain rfl := Option.some.inj hcur
      rw [hstatus]
      exact CoStatus.noConfusion

/-- Only the first part of `schedule` resumes a coroutine that sleeps: the one of the first entry,
which is due, and it takes that entry off. -/
theorem SleepSched.Inv.resumed {s : SleepSched} (h : s.Inv) {act : CoAct} {sched : Sched}
    (hs : s.sched.step act = some sched) {c : Nat} (hc : sched.cur = some c)
    (hsleeps : (s.sched.co c).status = .sleeping) : ∃ now ms, act = .schedule now ∧ ms ≤ now ∧
      s.sched.sleepTree = (ms, c) :: sched.sleepTree := by
  -- one that runs already does not sleep
  have hruns : s.sched.cur ≠ some c := by
    intro hcur
    rw [h.cur c hcur] at hsleeps
    cases hsleeps
  unfold Sched.step at hs
  split at hs
  case isTrue => cases hs
  case isFalse =>
  cases act with
  | schedule now =>
    simp only [Option.ite_none_right_eq_some, Option.some.injEq] at hs
    obtain ⟨-, rfl⟩ := hs
    obtain ⟨ms, hdue, htree⟩ := Sched.scheduleSleep_resumes hc hruns hsleeps
    exact ⟨now, ms, rfl, hdue, htree⟩
  | ready =>
    simp only [Option.ite_none_right_eq_some, Option.some.injEq] at hs
    obtain ⟨-, rfl⟩ := hs
    exact absurd hsleeps (h.scheduleReady_cur hc hruns)
  | poll evs =>
    simp only [Option.ite_none_right_eq_some, Option.some.injEq] at hs
    obtain ⟨-, rfl⟩ := hs
    exact absurd hc hruns
  | event =>
    simp only at hs
    split at hs
    next evs hidle hphase =>
      obtain rfl := Option.some.inj hs
      exact absurd hsleeps (h.scheduleEvent_cur hphase hc hruns)
    next => cases hs
  | create =>
    simp only [Option.ite_none_right_eq_some, Option.some.injEq] at hs
    obtain ⟨-, rfl⟩ := hs
    exact absurd hc hruns
  | close fd =>
    simp only [Option.ite_none_right_eq_some, Option.some.injEq] at hs
    obtain ⟨-, rfl⟩ := hs
    exact absurd hc hruns
  | yield =>
    obtain ⟨d, -, rfl⟩ := Option.map_eq_some_iff.mp hs
    cases hc
  | msleep now ms =>
    obtain ⟨d, -, rfl⟩ := Option.map_eq_some_iff.mp hs
    cases hc
  | wait fd =>
    obtain ⟨d, -, rfl⟩ := Option.map_eq_some_iff.mp hs
    split at hc
    · exact absurd hc hruns
    · cases hc
  | exit =>
    obtain ⟨d, -, rfl⟩ := Option.map_eq_some_iff.mp hs
    cases hc

/-- **`msleep` wakes the right coroutine.** In every run and at every point of it, the sleep tree has
the entries of the calls of `msleep` that have not returned, each once, and no coroutine is in two
calls. When a coroutine goes on in one, it is `schedule` that resumed it, at a time the deadline is
not after; the calls that were made before it have later deadlines, those made after it have none
that is earlier; and what is erased from the tree is the entry this call put in. -/
theorem msleep_wakes_right (acts : List CoAct) (s : SleepSched)
    (hrun : run SleepSched.step SleepSched.start acts = some s) :
    s.sched.sleepTree.Perm (s.calls.map SleepCall.entry) ∧ (s.calls.map SleepCall.co).Nodup ∧
    ∀ act s' x, s.step act = some s' → x ∈ s.calls → s'.sched.cur = some x.co →
      ∃ now pre post, act = .schedule now ∧ x.deadline ≤ now ∧
        s.calls = pre ++ x :: post ∧ s'.calls = pre ++ post ∧
        (∀ y ∈ pre, x.deadline < y.deadline) ∧ (∀ y ∈ post, x.deadline ≤ y.deadline) ∧
        s.sched.sleepTree = x.entry :: s'.sched.sleepTree := by
  have hinv : s.Inv := run_invariant_all SleepSched.step_inv SleepSched.start_inv hrun
  refine ⟨hinv.tree.perm, hinv.callers, fun act s' x hs hx hcur => ?_⟩
  obtain ⟨sched, hsched, rfl⟩ := Option.map_eq_some_iff.mp hs
  have hsleeps : (s.sched.co x.co).status = .sleeping :=
    (hinv.sleeping x.co).mpr (List.mem_map_of_mem hx)
  obtain ⟨now, ms, rfl, hdue, htree⟩ := hinv.resumed hsched hcur hsleeps
  obtain ⟨pre, y, post, hcalls, hy, hpre, hpost, hreturn, -⟩ := hinv.first htree
  -- the coroutine has no other call
  obtain rfl : y = x :=
    List.inj_on_of_nodup_map hinv.callers (by rw [hcalls]; simp) hx (congrArg Prod.snd hy)
  have hms : y.deadline = ms := congrArg Prod.fst hy
  refine ⟨now, pre, post, rfl, by rw [hms]; exact hdue, hcalls, ?_, hpre, hpost, ?_⟩
  · show (s.calls ++ CoAct.sleepCall (.schedule now) s.sched.cur).filter _ = _
    simp only [CoAct.sleepCall, List.append_nil]
    show s.calls.filter (fun z => sched.cur ≠ some z.co) = _
    rw [show sched.cur = some y.co from hcur]
    exact hreturn
  · rw [hy]
    exact htree

/-- Three coroutines: the first sleeps to 30, the other two to 20, and the second of them yields
first. At 20 the one wakes that went to sleep before the other. -/
theorem msleep_wakes_right_three :
    ∃ s s', run SleepSched.step SleepSched.start [.create, .create, .create, .schedule 0, .ready,
        .msleep 0 30, .poll [], .event, .schedule 1, .ready, .yield, .poll [], .event, .schedule 5,
        .ready, .msleep 5 15, .poll [], .event, .schedule 8, .ready, .msleep 8 12, .poll [],
        .event] = some s ∧ s.step (.schedule 20) = some s' ∧ s'.sched.cur = some 2 ∧
      s.sched.sleepTree = (20, 2) :: s'.sched.sleepTree := by
  obtain ⟨s, s', hrun, hstep, hcalls, hcur⟩ : ∃ s s', run SleepSched.step SleepSched.start
        [.create, .create, .create, .schedule 0, .ready,
        .msleep 0 30, .poll [], .event, .schedule 1, .ready, .yield, .poll [], .event, .schedule 5,
        .ready, .msleep 5 15, .poll [], .event, .schedule 8, .ready, .msleep 8 12, .poll [],
        .event] = some s ∧ s.step (.schedule 20) = some s' ∧
      s.calls = [⟨0, 30⟩, ⟨2, 20⟩, ⟨1, 20⟩] ∧ s'.sched.cur = some 2 :=
    ⟨_, _, rfl, rfl, rfl, rfl⟩
  obtain ⟨-, -, hwakes⟩ := msleep_wakes_right _ s hrun
  obtain ⟨now, pre, post, -, -, -, -, -, -, htree⟩ :=
    hwakes (.schedule 20) s' ⟨2, 20⟩ hstep (by rw [hcalls]; decide) hcur
  exact ⟨s, s', hrun, hstep, hcur, htree⟩

end Mgx
