import Mgx.HttpResponse
import Mgx.ThreadPool

/-
  The order of the responses.

  The workers of the pool answer the requests they pop: each builds its response
  and appends it to the send queue itself.

  Correspondence (C++ ↔ Lean):
    delivery number of a request, its push in
      `insert_msg_to_queue_and_signal`            ↔ its index in `inserted`
    `th_msg_process_func` on a popped buffer      ↔ `HttpAct.answer`
    `push_back` on `m_send_list` in `send_msg`    ↔ `HttpPool.appended`
    the responses on one connection               ↔ `HttpPool.responses`

  The other statements of the workers and of the threads that push are those of
  `ThreadPool`. What a worker finds while it builds a response (`Site`, `HttpEnv`,
  the order of the headers) is up to the step.

  What is proved: `responses_in_order`. The response to a later request is not
  appended before that to an earlier one, unless a worker pops the later request
  while another has the earlier one in its hands. Nothing rules that out:
  `responses_out_of_order`. A single worker keeps the order
  (`responses_in_order_alone`).
-/
namespace Mgx
open Runs

/-- The pool, and the responses appended to the send queue, each with the request it answers. -/
structure HttpPool where
  pool : ThPool HttpMsg
  appended : List (Addr × Bytes)

/-- What can happen: a statement of the pool, or worker `i` answers the request in its hands. -/
inductive HttpAct where
  | pool (act : PoolAct HttpMsg)
  | answer (i : Nat) (site : Site) (env : HttpEnv) (hdrs : List (Bytes × Bytes))

/-- The request worker `i` handles. -/
def ThPool.handledBy {μ : Type} (s : ThPool μ) (i : Nat) : Option Addr :=
  match s.workers[i]? with
  | some (.handling a) => some a
  | _ => none

/-- The action is a statement of a worker that has a request to answer. -/
def HttpPool.mustAnswer (s : HttpPool) : PoolAct HttpMsg → Bool
  | .worker i => (s.pool.handledBy i).isSome
  | _ => false

/-- Worker `i` answers request `a`. -/
def HttpPool.answer (s : HttpPool) (i : Nat) (a : Addr) (hdrs : List (Bytes × Bytes)) :
    Outcome → Option HttpPool
  | .fault => none
  | .waits => none
  | .dropped => (s.pool.step (.worker i)).map fun pool => { s with pool := pool }
  | .respond res =>
    if hdrs.Perm res.headers then
      (s.pool.step (.worker i)).map fun pool =>
        { pool := pool, appended := s.appended ++ [(a, sendBody res hdrs)] }
    else none

/-- One step. -/
def HttpPool.step (s : HttpPool) : HttpAct → Option HttpPool
  | .pool act =>
    if s.mustAnswer act then none
    else (s.pool.step act).map fun pool => { s with pool := pool }
  | .answer i site env hdrs =>
    (s.pool.handledBy i).bind fun a =>
      s.pool.inserted[a]?.bind fun msg => s.answer i a hdrs (httpThMsgProcessFunc site env msg)

/-- `n` workers, `k` threads that insert messages. -/
def HttpPool.start (n k : Nat) : HttpPool := ⟨ThPool.start HttpMsg n k, []⟩

/-- The requests answered on connection `hdr.pconn` in occupancy `hdr.curSeq`, in the order of the
responses. -/
def HttpPool.responses (s : HttpPool) (hdr : MsgHdr) : List Addr :=
  (s.appended.map Prod.fst).filter fun a => s.pool.inserted[a]?.any fun msg => msg.hdr == hdr

/-- The request the action pops. -/
def HttpPool.pops (s : HttpPool) : HttpAct → Option Addr
  | .pool (.worker i) =>
    if s.pool.workers[i]? = some .locked ∧ s.pool.shutdown = false then s.pool.queue.head? else none
  | _ => none

/-- No worker pops `later` while one has `earlier` in its hands. -/
def Apart (earlier later : Addr) (s : HttpPool) (act : HttpAct) : Prop :=
  s.pops act = some later → ∀ w ∈ s.pool.workers, w.inHand ≠ some earlier

instance (earlier later : Addr) (s : HttpPool) (act : HttpAct) :
    Decidable (Apart earlier later s act) :=
  inferInstanceAs (Decidable (_ → ∀ w ∈ s.pool.workers, _))

/-! ## What a step does -/

theorem ThPool.handledBy_eq {μ : Type} {s : ThPool μ} {i : Nat} {a : Addr}
    (h : s.handledBy i = some a) : s.workers[i]? = some (.handling a) := by
  unfold handledBy at h
  split at h
  · next a' hw =>
    obtain rfl := Option.some.inj h
    exact hw
  · cases h

/-- A step is one of the pool; it appends nothing, or the response to the request a worker has in
its hands. -/
theorem HttpPool.step_cases {s s' : HttpPool} {act : HttpAct} (hs : s.step act = some s') :
    (∃ poolAct, act = .pool poolAct ∧ s.pool.step poolAct = some s'.pool ∧
      s'.appended = s.appended) ∨
    (∃ i a, s.pool.workers[i]? = some (.handling a) ∧ s.pool.step (.worker i) = some s'.pool ∧
      (s'.appended = s.appended ∨ ∃ body, s'.appended = s.appended ++ [(a, body)])) := by
  cases act with
  | pool poolAct =>
    simp only [step] at hs
    split at hs
    case isTrue => cases hs
    case isFalse =>
    obtain ⟨pool, hpool, rfl⟩ := Option.map_eq_some_iff.mp hs
    exact .inl ⟨poolAct, rfl, hpool, rfl⟩
  | answer i site env hdrs =>
    obtain ⟨a, ha, hs⟩ := Option.bind_eq_some_iff.mp hs
    obtain ⟨msg, -, hs⟩ := Option.bind_eq_some_iff.mp hs
    refine .inr ⟨i, a, ThPool.handledBy_eq ha, ?_⟩
    unfold answer at hs
    split at hs
    · cases hs
    · cases hs
    · obtain ⟨pool, hpool, rfl⟩ := Option.map_eq_some_iff.mp hs
      exact ⟨hpool, .inl rfl⟩
    · split at hs
      · obtain ⟨pool, hpool, rfl⟩ := Option.map_eq_some_iff.mp hs
        exact ⟨hpool, .inr ⟨_, rfl⟩⟩
      · cases hs

/-! ## The invariant -/

/-- Responses go to requests that were popped. When the later request has been popped the earlier
one is in nobody's hands any more, and its response, if any, comes first. -/
structure HttpPool.Ordered (earlier later : Addr) (s : HttpPool) : Prop where
  pool : s.pool.Inv
  popped : ∀ a ∈ s.appended.map Prod.fst, a ∈ s.pool.popped.map Prod.snd
  passed : later ∈ s.pool.popped.map Prod.snd →
    earlier ∈ s.pool.popped.map Prod.snd ∧ ∀ w ∈ s.pool.workers, w.inHand ≠ some earlier
  order : ¬ [later, earlier].Sublist (s.appended.map Prod.fst)

/-- What is at the head of the queue was not popped before, and what was pushed before it was. -/
theorem ThPool.Inv.head {μ : Type} {s : ThPool μ} (h : s.Inv) {a : Addr}
    (ha : s.queue.head? = some a) :
    a ∉ s.popped.map Prod.snd ∧ ∀ x < a, x ∈ s.popped.map Prod.snd := by
  obtain ⟨rest, hq⟩ := List.head?_eq_some_iff.mp ha
  have horder := h.order
  rw [hq] at horder
  have hnodup : (s.popped.map Prod.snd ++ a :: rest).Nodup := horder ▸ List.nodup_range
  have hsorted : (s.popped.map Prod.snd ++ a :: rest).Pairwise (· < ·) :=
    horder ▸ List.pairwise_lt_range
  refine ⟨fun hmem => ?_, fun x hx => ?_⟩
  · exact (List.nodup_append.mp hnodup).2.2 a hmem a (List.mem_cons_self ..) rfl
  · have ha : a < s.inserted.length :=
      List.mem_range.mp (horder ▸ List.mem_append_right _ (List.mem_cons_self ..))
    have hmem : x ∈ s.popped.map Prod.snd ++ a :: rest :=
      horder ▸ List.mem_range.mpr (Nat.lt_trans hx ha)
    rcases List.mem_append.mp hmem with hpopped | hrest
    · exact hpopped
    · rcases List.mem_cons.mp hrest with rfl | hrest
      · exact absurd hx (Nat.lt_irrefl _)
      · have hle := List.rel_of_pairwise_cons (List.pairwise_append.mp hsorted).2.1 hrest
        exact absurd (Nat.lt_trans hx hle) (Nat.lt_irrefl _)

/-- A step of the pool keeps the part of the invariant that is about it. -/
theorem HttpPool.Ordered.pool_step {s : HttpPool} {earlier later : Addr}
    (h : s.Ordered earlier later) (hlt : earlier < later) {act : PoolAct HttpMsg}
    {pool : ThPool HttpMsg} (hs : s.pool.step act = some pool)
    (hapart : Apart earlier later s (.pool act)) :
    (HttpPool.mk pool s.appended).Ordered earlier later := by
  have hinv := ThPool.step_inv _ _ _ h.pool hs
  obtain ⟨i, a, rfl, hpop⟩ | hnone := ThPool.step_pops hs
  · obtain ⟨hfresh, hbefore⟩ := h.pool.head hpop.head
    have hmem : ∀ x, x ∈ pool.popped.map Prod.snd ↔ x ∈ s.pool.popped.map Prod.snd ∨ x = a := by
      intro x
      rw [hpop.popped, List.map_append, List.mem_append]
      simp
    refine ⟨hinv, fun x hx => (hmem x).mpr (.inl (h.popped x hx)), fun hlater => ?_, h.order⟩
    have hearlier : earlier ∈ s.pool.popped.map Prod.snd ∧
        ∀ w ∈ s.pool.workers, w.inHand ≠ some earlier := by
      rcases (hmem later).mp hlater with hlater | rfl
      · exact h.passed hlater
      · -- the later request is popped now, so the earlier one was before
        have hpops : s.pops (.pool (.worker i)) = some later := by
          simp only [pops, hpop.locked, hpop.running, and_self, if_true, hpop.head]
        exact ⟨hbefore earlier hlt, hapart hpops⟩
    refine ⟨(hmem earlier).mpr (.inl hearlier.1), fun w hw hhand => ?_⟩
    rw [hpop.workers] at hw
    rcases List.mem_or_eq_of_mem_set hw with hw | rfl
    · exact hearlier.2 w hw hhand
    · -- the worker that popped has something new in its hands
      obtain rfl : a = earlier := Option.some.inj hhand
      exact hfresh hearlier.1
  · refine ⟨hinv, ?_, ?_, h.order⟩
    · rw [hnone.popped]
      exact h.popped
    · rw [hnone.popped]
      intro hlater
      obtain ⟨hearlier, hfree⟩ := h.passed hlater
      refine ⟨hearlier, fun w hw hhand => ?_⟩
      obtain ⟨v, hv, hhand⟩ := hnone.hands w hw earlier hhand
      exact hfree v hv hhand

/-- A pair in a list with one more element at the end. -/
theorem pair_sublist_concat {α : Type} {x y z : α} {l : List α} (h : [x, y].Sublist (l ++ [z])) :
    [x, y].Sublist l ∨ y = z ∧ x ∈ l := by
  obtain ⟨l₁, l₂, heq, h₁, h₂⟩ := List.sublist_append_iff.mp h
  rcases List.sublist_singleton.mp h₂ with rfl | rfl
  · rw [List.append_nil] at heq
    exact .inl (heq ▸ h₁)
  · have hsplit : [x] ++ [y] = l₁ ++ [z] := heq
    obtain ⟨rfl, hz⟩ := List.append_inj' hsplit rfl
    exact .inr ⟨List.singleton_inj.mp hz, List.singleton_sublist.mp h₁⟩

/-- One more response: the earlier one can no longer come after the later. -/
theorem HttpPool.Ordered.append {s : HttpPool} {earlier later : Addr} (h : s.Ordered earlier later)
    {i : Nat} {a : Addr} (ha : s.pool.workers[i]? = some (.handling a)) (body : Bytes) :
    (HttpPool.mk s.pool (s.appended ++ [(a, body)])).Ordered earlier later := by
  have hmem := List.mem_of_getElem? ha
  refine ⟨h.pool, fun x hx => ?_, h.passed, fun hsub => ?_⟩
  · rw [List.map_append, List.mem_append] at hx
    rcases hx with hx | hx
    · exact h.popped x hx
    · obtain rfl := List.mem_singleton.mp hx
      exact h.pool.inHand_popped hmem rfl
  · rw [List.map_append] at hsub
    rcases pair_sublist_concat hsub with hsub | ⟨rfl, hlater⟩
    · exact h.order hsub
    · exact (h.passed (h.popped later hlater)).2 _ hmem rfl

/-- A worker with a request to answer pops nothing. -/
theorem HttpPool.apart_of_handling {s : HttpPool} {i : Nat} {a : Addr}
    (ha : s.pool.workers[i]? = some (.handling a)) (earlier later : Addr) :
    Apart earlier later s (.pool (.worker i)) := by
  intro hpops
  simp [pops, ha] at hpops

/-- Every step keeps the invariant. -/
theorem HttpPool.step_ordered {earlier later : Addr} (hlt : earlier < later) (s : HttpPool)
    (act : HttpAct) (s' : HttpPool) (h : s.Ordered earlier later)
    (hapart : Apart earlier later s act) (hs : s.step act = some s') : s'.Ordered earlier later := by
  obtain ⟨pool', appended'⟩ := s'
  obtain ⟨poolAct, rfl, hpool, rfl⟩ | ⟨i, a, ha, hpool, rfl | ⟨body, rfl⟩⟩ := step_cases hs
  · exact h.pool_step hlt hpool hapart
  · exact h.pool_step hlt hpool (apart_of_handling ha earlier later)
  · exact (h.append ha body).pool_step hlt hpool (apart_of_handling ha earlier later)

theorem HttpPool.start_ordered (n k : Nat) (earlier later : Addr) :
    (HttpPool.start n k).Ordered earlier later := by
  refine ⟨ThPool.start_inv n k, fun a ha => ?_, fun hlater => ?_, fun hsub => ?_⟩
  · exact absurd ha List.not_mem_nil
  · exact absurd hlater List.not_mem_nil
  · exact absurd (List.sublist_nil.mp hsub) (List.cons_ne_nil _ _)

/-- **The order of two responses.** For any number of workers and any interleaving: of two requests
on a connection in one occupancy, the response to the later one is not appended before that to the
earlier one, unless a worker pops the later request while another has the earlier in its hands. -/
theorem responses_in_order (n k : Nat) (acts : List HttpAct) (s : HttpPool)
    (hrun : run HttpPool.step (HttpPool.start n k) acts = some s) (earlier later : Addr)
    (hlt : earlier < later)
    (hapart : Meets HttpPool.step (Apart earlier later) (HttpPool.start n k) acts) (hdr : MsgHdr) :
    ¬ [later, earlier].Sublist (s.responses hdr) := by
  have hordered : s.Ordered earlier later :=
    run_invariant (HttpPool.step_ordered hlt) acts _ s (HttpPool.start_ordered n k earlier later)
      hapart hrun
  intro hsub
  exact hordered.order (hsub.trans List.filter_sublist)

/-- A POST request on connection 0 in its first occupancy. -/
def echoMsg : HttpMsg := { getRootMsg with httpMethod := .post }

/-- The request is delivered. -/
def deliverOne : List HttpAct :=
  .pool (.call 0 echoMsg) :: List.replicate 5 (.pool (.producer 0))

/-- Two requests are delivered, one after the other. -/
def deliverTwo : List HttpAct := deliverOne ++ deliverOne

/-- Worker `i` goes on, from `sem_wait` to the request it popped. -/
def takeOne (i : Nat) : List HttpAct := List.replicate 6 (.pool (.worker i))

/-- It answers. -/
def answerEcho (i : Nat) : HttpAct :=
  .answer i (onePage []) quietEnv (responseHeaders (ascii "application/json") 0)

/-- Two workers, the second pops after the first has answered. -/
theorem responses_in_order_echo :
    ∃ s, run HttpPool.step (HttpPool.start 2 1)
        (deliverTwo ++ takeOne 0 ++ [answerEcho 0] ++ takeOne 1 ++ [answerEcho 1]) = some s ∧
      s.responses ⟨0, 1⟩ = [0, 1] ∧ ¬ [1, 0].Sublist (s.responses ⟨0, 1⟩) := by
  obtain ⟨s, hrun, hresponses⟩ : ∃ s, run HttpPool.step (HttpPool.start 2 1)
        (deliverTwo ++ takeOne 0 ++ [answerEcho 0] ++ takeOne 1 ++ [answerEcho 1]) = some s ∧
      s.responses ⟨0, 1⟩ = [0, 1] := by
    apply Option.map_eq_some_iff.mp
    decide
  exact ⟨s, hrun, hresponses,
    responses_in_order 2 1 _ s hrun 0 1 (by decide) (by decide) ⟨0, 1⟩⟩

/-- Two workers: the first has popped the first request when the second pops the second one, and
answers before it. -/
theorem responses_out_of_order :
    ∃ s, run HttpPool.step (HttpPool.start 2 1)
        (deliverTwo ++ takeOne 0 ++ takeOne 1 ++ [answerEcho 1, answerEcho 0]) = some s ∧
      s.pool.inserted.map HttpMsg.hdr = [⟨0, 1⟩, ⟨0, 1⟩] ∧ s.responses ⟨0, 1⟩ = [1, 0] := by
  have hmap : (run HttpPool.step (HttpPool.start 2 1)
      (deliverTwo ++ takeOne 0 ++ takeOne 1 ++ [answerEcho 1, answerEcho 0])).map
        (fun s => (s.pool.inserted.map HttpMsg.hdr, s.responses ⟨0, 1⟩)) =
      some ([⟨0, 1⟩, ⟨0, 1⟩], [1, 0]) := by decide
  obtain ⟨s, hrun, heq⟩ := Option.map_eq_some_iff.mp hmap
  exact ⟨s, hrun, congrArg Prod.fst heq, congrArg Prod.snd heq⟩

/-! ## One worker -/

theorem HttpPool.step_length {s s' : HttpPool} {act : HttpAct} (hs : s.step act = some s') :
    s'.pool.workers.length = s.pool.workers.length := by
  obtain ⟨poolAct, -, hpool, -⟩ | ⟨i, a, -, hpool, -⟩ := step_cases hs
  · exact ThPool.step_length hpool
  · exact ThPool.step_length hpool

/-- The only worker has nothing in its hands when it pops. -/
theorem HttpPool.apart_of_alone {s : HttpPool} (h : s.pool.workers.length = 1) (act : HttpAct)
    (earlier later : Addr) : Apart earlier later s act := by
  intro hpops w hw hhand
  unfold pops at hpops
  split at hpops
  · next i =>
    obtain ⟨⟨hlocked, -⟩, -⟩ := Option.ite_none_right_eq_some.mp hpops
    obtain ⟨v, hv⟩ := List.length_eq_one_iff.mp h
    have hmem := List.mem_of_getElem? hlocked
    rw [hv] at hw hmem
    obtain rfl := List.mem_singleton.mp hw
    obtain rfl := List.mem_singleton.mp hmem
    cases hhand
  · cases hpops

/-- A single worker keeps the order of all requests. -/
theorem responses_in_order_alone (k : Nat) (acts : List HttpAct) (s : HttpPool)
    (hrun : run HttpPool.step (HttpPool.start 1 k) acts = some s) (earlier later : Addr)
    (hlt : earlier < later) : ¬ [later, earlier].Sublist (s.appended.map Prod.fst) := by
  have hapart : Meets HttpPool.step (Apart earlier later) (HttpPool.start 1 k) acts := by
    apply meets_of_prefixes
    intro pre act post _ m hm
    have hstep : ∀ (s : HttpPool) (act : HttpAct) (s' : HttpPool),
        s.pool.workers.length = 1 → s.step act = some s' → s'.pool.workers.length = 1 :=
      fun _ _ _ h hs => (HttpPool.step_length hs).trans h
    have hone : m.pool.workers.length = 1 := run_invariant_all hstep rfl hm
    exact HttpPool.apart_of_alone hone act earlier later
  exact (run_invariant (HttpPool.step_ordered hlt) acts _ s
    (HttpPool.start_ordered 1 k earlier later) hapart hrun).order

end Mgx
