import Mathlib.Data.List.Perm.Basic
import Mgx.Events

/-
  The timer queue of the heartbeat thread.

  `m_timer_queue` is a multimap from the time an entry is due to a message header
  with the connection and its `m_cur_seq`: here the list of its pairs in the order
  of the iteration. `m_timer_que_size` counts the entries and
  `m_timer_que_head_time` is the least key, both kept by hand. The counter has no
  bound (`Mgx.Comm`), and the other modules use this model; `Mgx.TimerCache` has the
  operations with the counter that wraps around.

  Correspondence (C++ ↔ Lean), `net/mgx_socket_time.cpp`:
    `get_earliest_time`                   ↔ `earliestTime`
    `add_to_timer_queue`                  ↔ `TimerQueue.addToTimerQueue`
    `delete_from_timer_queue`             ↔ `TimerQueue.deleteFromTimerQueue`
    `get_over_time_timer`                 ↔ `TimerQueue.getOverTimeTimer`

  `none` is undefined behaviour: `begin()` of an empty queue is dereferenced.

  What is proved: what each operation does to the entries, as a permutation of
  what was there. Adding is one more entry, a drained entry comes back under
  another key, and a deletion takes the first entry of the connection.
-/
namespace Mgx

/-- `m_timer_queue`, `m_timer_que_size` and `m_timer_que_head_time`. -/
structure TimerQueue where
  queue : List (Int × MsgHdr)
  size : Int
  headTime : Int

/-- Before the first client. -/
def TimerQueue.empty : TimerQueue := ⟨[], 0, 0⟩

/-- `get_earliest_time`. -/
def earliestTime (queue : List (Int × MsgHdr)) : Option Int := queue.head?.map Prod.fst

/-- `add_to_timer_queue` of a connection with the header `h`; `now` is what `time(nullptr)`
returns. -/
def TimerQueue.addToTimerQueue (t : TimerQueue) (wait now : Int) (h : MsgHdr) :
    Option TimerQueue :=
  let queue := emplace t.queue (now + wait) h
  (earliestTime queue).map fun e => ⟨queue, t.size + 1, e⟩

/-- The loop of `delete_from_timer_queue`. -/
def TimerQueue.eraseEntry (t : TimerQueue) (c : ConnId) : TimerQueue :=
  { t with
    queue := Mgx.deleteFromTimerQueue t.queue c
    size := if t.queue.any (·.2.pconn == c) then t.size - 1 else t.size }

/-- `delete_from_timer_queue`. -/
def TimerQueue.deleteFromTimerQueue (t : TimerQueue) (c : ConnId) : Option TimerQueue :=
  let t := t.eraseEntry c
  if t.size > 0 then (earliestTime t.queue).map fun e => { t with headTime := e } else some t

/-- `get_over_time_timer`: the header it returns, or null, and the queue it leaves. -/
def TimerQueue.getOverTimeTimer (t : TimerQueue) (wait curTime : Int) :
    Option (Option MsgHdr × TimerQueue) :=
  if t.size = 0 then some (none, t)
  else match t.queue with
    | [] => none
    | (e, h) :: rest =>
      if curTime < e then some (none, t)
      else
        let queue := emplace rest (curTime + wait) h
        (earliestTime queue).map fun e' => (some h, ⟨queue, t.size - 1 + 1, e'⟩)

/-- The headers in the queue. -/
def TimerQueue.hdrs (t : TimerQueue) : List MsgHdr := t.queue.map Prod.snd

/-! ## What the operations do to the entries -/

theorem emplace_perm (q : List (Int × MsgHdr)) (t : Int) (h : MsgHdr) :
    (emplace q t h).Perm ((t, h) :: q) := by
  have hmiddle : (q.takeWhile (·.1 ≤ t) ++ (t, h) :: q.dropWhile (·.1 ≤ t)).Perm
      ((t, h) :: (q.takeWhile (·.1 ≤ t) ++ q.dropWhile (·.1 ≤ t))) := List.perm_middle
  rwa [List.takeWhile_append_dropWhile] at hmiddle

theorem emplace_hdrs_perm (q : List (Int × MsgHdr)) (t : Int) (h : MsgHdr) :
    ((emplace q t h).map Prod.snd).Perm (h :: q.map Prod.snd) :=
  (emplace_perm q t h).map Prod.snd

section
variable {t t' : TimerQueue} {wait now : Int}

theorem TimerQueue.add_hdrs {h : MsgHdr} (hadd : t.addToTimerQueue wait now h = some t') :
    t'.hdrs.Perm (h :: t.hdrs) := by
  unfold TimerQueue.addToTimerQueue at hadd
  obtain ⟨e, -, rfl⟩ := Option.map_eq_some_iff.mp hadd
  exact emplace_hdrs_perm ..

/-- Erasing by the connection is erasing from the headers. -/
theorem map_deleteFromTimerQueue (q : List (Int × MsgHdr)) (c : ConnId) :
    (Mgx.deleteFromTimerQueue q c).map Prod.snd = (q.map Prod.snd).eraseP (·.pconn == c) := by
  unfold Mgx.deleteFromTimerQueue
  rw [List.eraseP_map]
  rfl

theorem TimerQueue.delete_hdrs {c : ConnId} (hdel : t.deleteFromTimerQueue c = some t') :
    t'.hdrs = t.hdrs.eraseP (·.pconn == c) := by
  have hqueue : t'.queue = Mgx.deleteFromTimerQueue t.queue c := by
    simp only [TimerQueue.deleteFromTimerQueue] at hdel
    split at hdel
    · obtain ⟨e, -, rfl⟩ := Option.map_eq_some_iff.mp hdel
      rfl
    · obtain rfl := Option.some.inj hdel
      rfl
  rw [TimerQueue.hdrs, hqueue, map_deleteFromTimerQueue]
  rfl

/-- Draining an entry puts it back; otherwise the queue is left alone. -/
theorem TimerQueue.getOverTimeTimer_hdrs {r : Option MsgHdr}
    (hget : t.getOverTimeTimer wait now = some (r, t')) :
    t'.hdrs.Perm t.hdrs ∧ ∀ h ∈ r, h ∈ t.hdrs := by
  unfold TimerQueue.getOverTimeTimer at hget
  split at hget
  · cases hget
    exact ⟨.refl _, by simp⟩
  split at hget
  · cases hget
  next e h rest hqueue =>
  split at hget
  · cases hget
    exact ⟨.refl _, by simp⟩
  obtain ⟨e', -, heq⟩ := Option.map_eq_some_iff.mp hget
  cases heq
  have hhdrs : t.hdrs = h :: rest.map Prod.snd := by rw [TimerQueue.hdrs, hqueue]; rfl
  rw [hhdrs]
  refine ⟨emplace_hdrs_perm .., fun x hx => ?_⟩
  cases hx
  exact List.mem_cons_self ..

end

end Mgx
