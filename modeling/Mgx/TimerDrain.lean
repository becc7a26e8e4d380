import Mgx.Heartbeat
import Mgx.Lib.Multimap

/-
  Draining what is due.

  `monitor_timer_th_func` calls `get_over_time_timer` until it returns null. Each
  call that returns an entry puts a new one for the same client into the queue, so
  the queue does not get shorter; what gets fewer are the entries that are due,
  because the new one is due at least five seconds from `cur_time` on.

  Correspondence (C++ ↔ Lean), `net/mgx_socket_time.cpp`:
    `while ((pmsg_hdr = get_over_time_timer(cur_time)))
       que.push(pmsg_hdr)`                              ↔ `TimerQueue.drain`

  `TimerQueue.Holds` is the invariant of the queue: it is a multimap, and
  `m_timer_que_size` counts its entries. `time_t` does not overflow here.

  What is proved: `expired_timers_drained`. The loop ends, after one call more than
  there are entries due; it returns these in their order, and puts each back.
-/
namespace Mgx

/-- The loop around `get_over_time_timer`, cut off after `calls` calls; `none` when that is too
early, or the behaviour is undefined. -/
def TimerQueue.drain (wait curTime : Int) : Nat → TimerQueue → Option (List MsgHdr × TimerQueue)
  | 0, _ => none
  | calls + 1, t =>
    (t.getOverTimeTimer wait curTime).bind fun (r, t) =>
      match r with
      | none => some ([], t)
      | some h => (drain wait curTime calls t).map fun (que, t) => (h :: que, t)

/-- The queue after the entries `ins` were put in, in this order, apart from those erased since. -/
structure TimerQueue.Holds (t : TimerQueue) (ins : List (Int × MsgHdr)) : Prop where
  queue : Multimap.Holds Prod.fst ins t.queue
  size : t.size = t.queue.length

/-! ## The operations keep the queue a queue -/

theorem TimerQueue.empty_holds : TimerQueue.empty.Holds [] := ⟨.nil, rfl⟩

section
variable {t t' : TimerQueue} {ins : List (Int × MsgHdr)} {wait now : Int}

theorem emplace_length (q : List (Int × MsgHdr)) (time : Int) (h : MsgHdr) :
    (emplace q time h).length = q.length + 1 :=
  (emplace_perm q time h).length_eq

theorem TimerQueue.Holds.add (hins : t.Holds ins) {h : MsgHdr}
    (hadd : t.addToTimerQueue wait now h = some t') : t'.Holds (ins ++ [(now + wait, h)]) := by
  unfold TimerQueue.addToTimerQueue at hadd
  obtain ⟨e, -, rfl⟩ := Option.map_eq_some_iff.mp hadd
  refine ⟨hins.queue.emplace (now + wait, h), ?_⟩
  show t.size + 1 = ((emplace t.queue (now + wait) h).length : Int)
  rw [emplace_length, hins.size]
  rfl

/-- Erasing the first entry of a connection. -/
theorem TimerQueue.Holds.eraseEntry (hins : t.Holds ins) (c : ConnId) :
    (t.eraseEntry c).Holds (t.eraseEntry c).queue := by
  refine ⟨.of_sorted (hins.queue.sorted.sublist List.eraseP_sublist), ?_⟩
  show (if t.queue.any (·.2.pconn == c) then t.size - 1 else t.size) =
    ((t.queue.eraseP (·.2.pconn == c)).length : Int)
  rw [List.length_eraseP, hins.size]
  split
  · next hany =>
    obtain ⟨e, he, -⟩ := List.any_eq_true.mp hany
    have hpos := List.length_pos_of_mem he
    omega
  · rfl

theorem TimerQueue.Holds.delete (hins : t.Holds ins) {c : ConnId}
    (hdel : t.deleteFromTimerQueue c = some t') : ∃ ins', t'.Holds ins' := by
  have herase := hins.eraseEntry c
  unfold TimerQueue.deleteFromTimerQueue at hdel
  simp only at hdel
  split at hdel
  · obtain ⟨e, -, rfl⟩ := Option.map_eq_some_iff.mp hdel
    exact ⟨_, herase.queue, herase.size⟩
  · obtain rfl := Option.some.inj hdel
    exact ⟨_, herase⟩

/-! ## One call -/

/-- Nothing is due. -/
theorem TimerQueue.getOverTimeTimer_none (hsize : t.size = t.queue.length)
    (hnone : ∀ e ∈ t.queue, now < e.1) : t.getOverTimeTimer wait now = some (none, t) := by
  unfold TimerQueue.getOverTimeTimer
  split
  · rfl
  next hpos =>
  cases hqueue : t.queue with
  | nil => exact absurd (by rw [hsize, hqueue]; rfl) hpos
  | cons e rest =>
    have hlt := hnone e (by rw [hqueue]; exact List.mem_cons_self)
    simp only [hlt, if_true]

/-- The first entry is due: it is returned, and its client comes back under a later key. -/
theorem TimerQueue.getOverTimeTimer_some (hsize : t.size = t.queue.length) {e : Int × MsgHdr}
    {rest : List (Int × MsgHdr)} (hqueue : t.queue = e :: rest) (hdue : e.1 ≤ now) :
    ∃ headTime, t.getOverTimeTimer wait now =
      some (some e.2, ⟨emplace rest (now + wait) e.2, t.size, headTime⟩) := by
  have hpos : t.size ≠ 0 := by
    rw [hsize, hqueue, List.length_cons]
    omega
  obtain ⟨e', tail, htail⟩ : ∃ e' tail, emplace rest (now + wait) e.2 = e' :: tail :=
    List.exists_cons_of_ne_nil (by simp [emplace])
  refine ⟨e'.1, ?_⟩
  unfold TimerQueue.getOverTimeTimer
  rw [if_neg hpos, hqueue]
  simp only [Int.not_lt.mpr hdue, if_false, htail, earliestTime, List.head?_cons, Option.map_some]
  rw [Int.sub_add_cancel]

/-! ## The loop -/

/-- The entries `due` come first and are due, the others are not: every call takes the first of
`due`, and the entry it puts in goes behind them. -/
theorem TimerQueue.drain_due (hwait : 0 < wait) : ∀ (due rest : List (Int × MsgHdr))
    (t : TimerQueue), t.queue = due ++ rest → t.size = t.queue.length → (∀ e ∈ due, e.1 ≤ now) →
    (∀ e ∈ rest, now < e.1) → ∃ t', (∀ calls, due.length < calls →
      t.drain wait now calls = some (due.map Prod.snd, t')) ∧ t'.size = t.size ∧
      t'.queue = due.foldl (fun q e => emplace q (now + wait) e.2) rest := by
  intro due
  induction due with
  | nil =>
    intro rest t hqueue hsize _ hrest
    refine ⟨t, fun calls hcalls => ?_, rfl, hqueue⟩
    obtain ⟨calls, rfl⟩ := Nat.exists_eq_add_one.mpr hcalls
    rw [TimerQueue.drain, getOverTimeTimer_none hsize (by rw [hqueue]; exact hrest)]
    rfl
  | cons e due ih =>
    intro rest t hqueue hsize hdue hrest
    rw [List.cons_append] at hqueue
    have hhead : e.1 ≤ now := hdue e List.mem_cons_self
    obtain ⟨headTime, hget⟩ : ∃ headTime, t.getOverTimeTimer wait now =
        some (some e.2, ⟨emplace (due ++ rest) (now + wait) e.2, t.size, headTime⟩) :=
      getOverTimeTimer_some hsize hqueue hhead
    have hdue' : ∀ e ∈ due, e.1 ≤ now := fun d hd => hdue d (List.mem_cons_of_mem e hd)
    -- the new entry is not due
    have hlater : now < (now + wait, e.2).1 := by
      show now < now + wait
      omega
    have hbehind : emplace (due ++ rest) (now + wait) e.2 =
        due ++ emplace rest (now + wait) e.2 :=
      Multimap.emplace_upTo (x := (now + wait, e.2)) hdue' hlater rest
    have hrest' : ∀ d ∈ emplace rest (now + wait) e.2, now < d.1 := by
      intro d hd
      rcases List.mem_cons.mp ((emplace_perm rest (now + wait) e.2).mem_iff.mp hd) with rfl | hd
      · show now < now + wait
        omega
      · exact hrest d hd
    obtain ⟨t', hdrain, hsize', hqueue'⟩ := ih (emplace rest (now + wait) e.2)
      ⟨emplace (due ++ rest) (now + wait) e.2, t.size, headTime⟩ hbehind
      (by rw [emplace_length, hsize, hqueue]; rfl) hdue' hrest'
    refine ⟨t', fun calls hcalls => ?_, hsize', hqueue'⟩
    obtain ⟨calls, rfl⟩ := Nat.exists_eq_add_one.mpr (Nat.lt_of_le_of_lt (Nat.zero_le _) hcalls)
    have hcalls' : due.length < calls := by
      rw [List.length_cons] at hcalls
      omega
    rw [TimerQueue.drain, hget]
    show ((TimerQueue.drain wait now calls _).map _ : Option _) = _
    rw [hdrain calls hcalls']
    rfl

/-- The loop does what `overTime` says. -/
theorem TimerQueue.Holds.drain_overTime (hins : t.Holds ins) (hwait : 0 < wait) :
    ∃ t', (∀ calls, (overTime t.queue now wait).1.length < calls →
      t.drain wait now calls = some ((overTime t.queue now wait).1, t')) ∧
      t'.size = t.size ∧ t'.queue = (overTime t.queue now wait).2 := by
  have hdue : ∀ e ∈ t.queue.takeWhile (·.1 ≤ now), e.1 ≤ now := by
    intro e he
    rw [Multimap.takeWhile_le hins.queue.sorted] at he
    exact of_decide_eq_true (List.mem_filter.mp he).2
  have hrest : ∀ e ∈ t.queue.dropWhile (·.1 ≤ now), now < e.1 := by
    intro e he
    rw [Multimap.dropWhile_le hins.queue.sorted] at he
    exact of_decide_eq_true (List.mem_filter.mp he).2
  obtain ⟨t', hdrain, hsize, hqueue⟩ := drain_due hwait _ _ t
    List.takeWhile_append_dropWhile.symm hins.size hdue hrest
  refine ⟨t', fun calls hcalls => hdrain calls (by simpa [overTime] using hcalls), hsize, ?_⟩
  rw [hqueue, overTime, List.foldl_map]

end

/-- **Expired timers are drained.** For every timer queue, every `cur_time` and every waiting time
that `read_conf` lets through, the loop ends, after one call more than there are entries due. What
it returns are the entries with a key up to `cur_time`, in the order of their keys and under one key
in the order they were put in. The queue afterwards has the other entries, and behind them in age one
entry for each that was returned, with the same connection and `cur_seq`. -/
theorem expired_timers_drained (t : TimerQueue) (ins : List (Int × MsgHdr)) (hins : t.Holds ins)
    (wait : HeartWaitTime) (curTime : Int) :
    ∃ (due : List (Int × MsgHdr)) (t' : TimerQueue),
      (∀ calls, due.length < calls →
        t.drain wait.val curTime calls = some (due.map Prod.snd, t')) ∧
      due.Perm (ins.filter (·.1 ≤ curTime)) ∧
      Multimap.Holds Prod.fst (ins.filter (·.1 ≤ curTime)) due ∧
      t'.queue.Perm (ins.filter (curTime < ·.1) ++ due.map fun e => (curTime + wait.val, e.2)) ∧
      t'.Holds (ins.filter (curTime < ·.1) ++ due.map fun e => (curTime + wait.val, e.2)) ∧
      t'.size = t.size := by
  have hwait : 0 < wait.val := by have hmin := wait.min; omega
  obtain ⟨t', hdrain, hsize, hqueue⟩ : ∃ t', (∀ calls, (overTime t.queue curTime wait.val).1.length <
      calls → t.drain wait.val curTime calls = some ((overTime t.queue curTime wait.val).1, t')) ∧
      t'.size = t.size ∧ t'.queue = (overTime t.queue curTime wait.val).2 :=
    hins.drain_overTime hwait
  have hdue := hins.queue.upTo curTime
  have hafter : Multimap.Holds Prod.fst
      (ins.filter (curTime < ·.1) ++ (t.queue.takeWhile (·.1 ≤ curTime)).map
        fun e => (curTime + wait.val, e.2)) t'.queue := by
    have hall := (hins.queue.beyond curTime).emplaceAll
      ((t.queue.takeWhile (·.1 ≤ curTime)).map fun e => (curTime + wait.val, e.2))
    rw [List.foldl_map] at hall
    rw [hqueue, overTime, List.foldl_map]
    exact hall
  -- as many come back as went
  have hlength : t'.queue.length = t.queue.length := by
    have hsplit := List.takeWhile_append_dropWhile (p := (·.1 ≤ curTime)) (l := t.queue)
    have hbeyond := (hins.queue.beyond curTime).perm.length_eq
    rw [hafter.perm.length_eq, ← hsplit, List.length_append, List.length_append, List.length_map,
      ← hbeyond, hsplit]
    omega
  refine ⟨_, t', fun calls hcalls => hdrain calls (by simpa [overTime] using hcalls), hdue.perm,
    hdue, hafter.perm, ⟨hafter, ?_⟩, hsize⟩
  rw [hsize, hins.size, hlength]

/-- Three clients, two of them due at the same second: three calls. -/
theorem expired_timers_drained_three :
    ∃ t', (TimerQueue.mk [(4, ⟨2, 7⟩), (4, ⟨1, 5⟩), (9, ⟨3, 1⟩)] 3 4).drain 5 6 3 =
        some ([⟨2, 7⟩, ⟨1, 5⟩], t') ∧
      t'.queue.Perm [(9, ⟨3, 1⟩), (11, ⟨2, 7⟩), (11, ⟨1, 5⟩)] ∧ t'.size = 3 := by
  have hins : (TimerQueue.mk [(4, ⟨2, 7⟩), (4, ⟨1, 5⟩), (9, ⟨3, 1⟩)] 3 4).Holds
      [(4, ⟨2, 7⟩), (4, ⟨1, 5⟩), (9, ⟨3, 1⟩)] := ⟨.of_sorted (by decide), rfl⟩
  obtain ⟨due, t', hdrain, hperm, hdue, hqueue, -, hsize⟩ :=
    expired_timers_drained _ _ hins ⟨5, by decide, by decide⟩ 6
  have hfour : due = [(4, ⟨2, 7⟩), (4, ⟨1, 5⟩)] := by
    refine (List.filter_eq_self.mpr fun e he => ?_).symm.trans (hdue.fifo 4)
    have hmem := hperm.mem_iff.mp he
    simp only [List.mem_filter, List.mem_cons, List.not_mem_nil, or_false] at hmem
    rcases hmem.1 with rfl | rfl | rfl
    · rfl
    · rfl
    · exact absurd hmem.2 (by decide)
  subst hfour
  exact ⟨t', hdrain 3 (by decide), hqueue, hsize⟩

end Mgx
