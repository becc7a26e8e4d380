/-
  Runs of a machine whose step may be disabled.

  A machine is a step function `σ → α → Option σ`; `none` means that the action
  is not enabled in that state. `run` takes a list of actions. The results are
  the rules every later induction over runs is an instance of:

    `run_invariant`      a property kept by every step that meets a condition
                         holds at the end of every run all of whose steps meet it;
    `run_invariant_iff`  when a step keeps it only so, it holds all along a run
                         exactly if all steps meet the condition;
    `run_total`          where every action is enabled and keeps the invariant, every
                         list of actions is a run;
    `exists_run_stuck`   where the steps of a kind lower a rank, some run ends in a
                         state in which none of them is enabled;
    `run_countdown`      what each step of a kind brings one nearer, and no other
                         step moves, is reached after as many steps of the kind;
    `run_relates`        a reflexive and transitive relation that every step obeys
                         relates the ends of every run;
    `run_refines`        where each step is matched by a few steps of another machine,
                         so is every run;
    `run_append`         runs compose.

  Nothing here names a program.
-/
namespace Runs

variable {σ α : Type}

/-- Take the actions in order; `none` as soon as one is not enabled. -/
def run (step : σ → α → Option σ) : σ → List α → Option σ
  | s, [] => some s
  | s, a :: as => (step s a).bind (fun s' => run step s' as)

/-- Every action of the list meets `ok` in the state in which it is taken. -/
def Meets (step : σ → α → Option σ) (ok : σ → α → Prop) : σ → List α → Prop
  | _, [] => True
  | s, a :: as => ok s a ∧ ∀ s', step s a = some s' → Meets step ok s' as

variable {step : σ → α → Option σ} {ok : σ → α → Prop}

@[simp] theorem run_nil (s : σ) : run step s [] = some s := rfl

theorem run_cons {s s' : σ} {a : α} {as : List α} :
    run step s (a :: as) = some s' ↔ ∃ m, step s a = some m ∧ run step m as = some s' := by
  simp [run, Option.bind_eq_some_iff]

theorem run_append {s s' : σ} {as bs : List α} :
    run step s (as ++ bs) = some s' ↔ ∃ m, run step s as = some m ∧ run step m bs = some s' := by
  induction as generalizing s with
  | nil => simp [run]
  | cons a as ih =>
    simp only [List.cons_append, run_cons, ih]
    constructor
    · rintro ⟨m, ha, n, hn, hb⟩; exact ⟨n, ⟨m, ha, hn⟩, hb⟩
    · rintro ⟨n, ⟨m, ha, hn⟩, hb⟩; exact ⟨m, ha, n, hn, hb⟩

theorem meets_append {s m : σ} {as bs : List α} (h : Meets step ok s (as ++ bs))
    (hr : run step s as = some m) : Meets step ok s as ∧ Meets step ok m bs := by
  induction as generalizing s with
  | nil =>
    simp only [run_nil, Option.some.injEq] at hr
    subst hr
    exact ⟨trivial, h⟩
  | cons a as ih =>
    obtain ⟨n, ha, hn⟩ := run_cons.mp hr
    obtain ⟨hok, hrest⟩ := h
    refine ⟨⟨hok, ?_⟩, (ih (hrest n ha) hn).2⟩
    intro n' hn'
    obtain rfl : n = n' := by rw [ha] at hn'; exact Option.some.inj hn'
    exact (ih (hrest n ha) hn).1

/-- The condition is met step by step. -/
theorem meets_cons {s m : σ} {a : α} {as : List α} (hok : ok s a) (hs : step s a = some m)
    (hm : Meets step ok m as) : Meets step ok s (a :: as) := by
  refine ⟨hok, fun s' h => ?_⟩
  obtain rfl : m = s' := Option.some.inj (hs.symm.trans h)
  exact hm

/-- A condition that every step meets is met along every run. -/
theorem meets_of_forall (h : ∀ s a, ok s a) : ∀ (as : List α) (s : σ), Meets step ok s as
  | [], _ => trivial
  | a :: as, s => ⟨h s a, fun s' _ => meets_of_forall h as s'⟩

/-- A condition that every action meets where it is taken is met along the run. -/
theorem meets_of_prefixes {as : List α} : ∀ {s : σ}, (∀ pre a post, as = pre ++ a :: post →
    ∀ m, run step s pre = some m → ok m a) → Meets step ok s as := by
  induction as with
  | nil => intro s _; trivial
  | cons a as ih =>
    intro s h
    refine ⟨h [] a as rfl s rfl, fun s' hs => ih ?_⟩
    intro pre b post heq m hm
    apply h (a :: pre) b post (by rw [heq, List.cons_append]) m
    exact run_cons.mpr ⟨s', hs, hm⟩

/-- Whether the condition is met along a run can be computed. -/
instance decidableMeets [∀ s a, Decidable (ok s a)] : ∀ (as : List α) (s : σ),
    Decidable (Meets step ok s as)
  | [], _ => isTrue trivial
  | a :: as, s =>
    have := decidableMeets as
    inferInstanceAs (Decidable (ok s a ∧ ∀ s' ∈ step s a, Meets step ok s' as))

theorem Meets.imp {ok' : σ → α → Prop} (h : ∀ s a, ok s a → ok' s a) :
    ∀ (as : List α) (s : σ), Meets step ok s as → Meets step ok' s as
  | [], _, _ => trivial
  | _ :: as, s, hm => ⟨h s _ hm.1, fun s' hs => Meets.imp h as s' (hm.2 s' hs)⟩

/-- A condition on the actions alone joins one that is met along the run. -/
theorem Meets.and_mem {p : α → Prop} : ∀ {as : List α} {s : σ}, (∀ a ∈ as, p a) →
    Meets step ok s as → Meets step (fun s a => p a ∧ ok s a) s as
  | [], _, _, _ => trivial
  | a :: _, _, hp, hm =>
    ⟨⟨hp a List.mem_cons_self, hm.1⟩, fun s' hs =>
      Meets.and_mem (fun b hb => hp b (List.mem_cons_of_mem a hb)) (hm.2 s' hs)⟩

/-- **The invariant rule.** What every step meeting `ok` preserves holds at the end of every run
whose steps all meet `ok`. -/
theorem run_invariant {Inv : σ → Prop}
    (hstep : ∀ s a s', Inv s → ok s a → step s a = some s' → Inv s') :
    ∀ (as : List α) (s s' : σ), Inv s → Meets step ok s as → run step s as = some s' → Inv s'
  | [], s, s', hs, _, hr => by
    simp only [run_nil, Option.some.injEq] at hr
    exact hr ▸ hs
  | a :: as, s, s', hs, hm, hr => by
    obtain ⟨m, ha, hr⟩ := run_cons.mp hr
    exact run_invariant hstep as m s' (hstep s a m hs hm.1 ha) (hm.2 m ha) hr

/-- The invariant rule with no condition on the steps. -/
theorem run_invariant_all {Inv : σ → Prop}
    (hstep : ∀ s a s', Inv s → step s a = some s' → Inv s') {as : List α} {s s' : σ}
    (hs : Inv s) (hr : run step s as = some s') : Inv s' := by
  have htrue : Meets step (fun _ _ => True) s as := meets_of_forall (fun _ _ => trivial) as s
  apply run_invariant (fun s a s' hs _ h => hstep s a s' hs h) as s s' hs htrue hr

/-- **The progress rule.** Where no action is ever disabled, every list of actions can be taken. -/
theorem run_total {Inv : σ → Prop} (hstep : ∀ s a, Inv s → ∃ s', step s a = some s' ∧ Inv s') :
    ∀ (as : List α) (s : σ), Inv s → ∃ s', run step s as = some s' ∧ Inv s'
  | [], s, hs => ⟨s, rfl, hs⟩
  | a :: as, s, hs => by
    obtain ⟨m, ha, hm⟩ := hstep s a hs
    obtain ⟨s', hrun, hs'⟩ := run_total hstep as m hm
    exact ⟨s', run_cons.mpr ⟨m, ha, hrun⟩, hs'⟩

/-- **The exact rule**, for runs whose steps meet `dom`. Where such a step keeps the property exactly
if it meets `ok`, the property holds all along such a run exactly if every step of it does. -/
theorem run_invariant_iff_of {Inv : σ → Prop} {dom : σ → α → Prop}
    (hstep : ∀ s a s', Inv s → dom s a → step s a = some s' → (Inv s' ↔ ok s a)) :
    ∀ (as : List α) (s s' : σ), Inv s → Meets step dom s as → run step s as = some s' →
      ((∀ pre post m, as = pre ++ post → run step s pre = some m → Inv m) ↔ Meets step ok s as)
  | [], s, s', hs, _, _ => by
    refine iff_of_true (fun pre post m heq hm => ?_) trivial
    obtain ⟨rfl, -⟩ := List.append_eq_nil_iff.mp heq.symm
    rw [run_nil, Option.some.injEq] at hm
    exact hm ▸ hs
  | a :: as, s, s', hs, hdom, hr => by
    obtain ⟨m, ha, hr⟩ := run_cons.mp hr
    constructor
    · intro hall
      have hm : Inv m := hall [a] as m rfl (run_cons.mpr ⟨m, ha, rfl⟩)
      have hrest := (run_invariant_iff_of hstep as m s' hm (hdom.2 m ha) hr).mp
        fun pre post n heq hn =>
          hall (a :: pre) post n (by rw [heq, List.cons_append]) (run_cons.mpr ⟨m, ha, hn⟩)
      refine ⟨(hstep s a m hs hdom.1 ha).mp hm, fun n hn => ?_⟩
      rwa [Option.some.inj (hn.symm.trans ha)]
    · rintro ⟨hok, hrest⟩ pre post n heq hn
      cases pre with
      | nil =>
        rw [run_nil, Option.some.injEq] at hn
        exact hn ▸ hs
      | cons x pre =>
        obtain ⟨rfl, htail⟩ := List.cons.inj (heq.trans List.cons_append)
        obtain ⟨n', hn', hn⟩ := run_cons.mp hn
        obtain rfl := Option.some.inj (ha.symm.trans hn')
        have hm := (hstep s a m hs hdom.1 ha).mpr hok
        exact (run_invariant_iff_of hstep as m s' hm (hdom.2 m ha) hr).mpr (hrest m ha) pre post n
          htail hn

/-- The exact rule for all runs. -/
theorem run_invariant_iff {Inv : σ → Prop}
    (hstep : ∀ s a s', Inv s → step s a = some s' → (Inv s' ↔ ok s a)) (as : List α) (s s' : σ)
    (hs : Inv s) (hr : run step s as = some s') :
    (∀ pre post m, as = pre ++ post → run step s pre = some m → Inv m) ↔ Meets step ok s as :=
  run_invariant_iff_of (fun s a s' hs _ h => hstep s a s' hs h) as s s' hs
    (meets_of_forall (fun _ _ => trivial) as s) hr

/-- **The termination rule.** Where the actions of a kind keep an invariant and lower a rank, they can
be taken until none of them is enabled. -/
theorem exists_run_stuck {Inv : σ → Prop} {kind : α → Prop} (rank : σ → Nat)
    (hstep : ∀ s a s', Inv s → kind a → step s a = some s' → Inv s' ∧ rank s' < rank s) (s : σ)
    (hs : Inv s) : ∃ as s', run step s as = some s' ∧ Inv s' ∧ ∀ a, kind a → step s' a = none := by
  induction hn : rank s using Nat.strongRecOn generalizing s with
  | ind n ih =>
    by_cases hstuck : ∀ a, kind a → step s a = none
    · exact ⟨[], s, rfl, hs, hstuck⟩
    · simp only [Classical.not_forall, Option.ne_none_iff_exists'] at hstuck
      obtain ⟨a, ha, m, hm⟩ := hstuck
      obtain ⟨hinv, hlt⟩ := hstep s a m hs ha hm
      obtain ⟨as, s', hrun, hs', hnone⟩ := ih (rank m) (hn ▸ hlt) m hinv rfl
      exact ⟨a :: as, s', run_cons.mpr ⟨m, hm, hrun⟩, hs', hnone⟩

/-- **The countdown rule.** Where each step of a kind takes `W (n + 1)` to `W n` and the others keep
`W n`, a run lowers the number by the steps of the kind that are in it. -/
theorem run_countdown {W : Nat → σ → Prop} {kind : α → Bool}
    (hkind : ∀ n s a s', W (n + 1) s → kind a = true → ok s a → step s a = some s' → W n s')
    (hother : ∀ n s a s', W n s → kind a = false → ok s a → step s a = some s' → W n s') :
    ∀ (as : List α) (s s' : σ) (n : Nat), W (n + as.countP kind) s → Meets step ok s as →
      run step s as = some s' → W n s'
  | [], s, s', n, hs, _, hr => by
    simp only [run_nil, Option.some.injEq] at hr
    simpa [hr] using hs
  | a :: as, s, s', n, hs, hm, hr => by
    obtain ⟨m, ha, hr⟩ := run_cons.mp hr
    apply run_countdown hkind hother as m s' n _ (hm.2 m ha) hr
    cases hk : kind a with
    | true =>
      rw [List.countP_cons_of_pos hk, ← Nat.add_assoc] at hs
      exact hkind _ s a m hs hk hm.1 ha
    | false =>
      rw [List.countP_cons_of_neg (by simp [hk])] at hs
      exact hother _ s a m hs hk hm.1 ha

/-- **The relation rule**, for states that satisfy an invariant along the way. -/
theorem run_relates {Inv : σ → Prop} {R : σ → σ → Prop} (refl : ∀ s, R s s)
    (trans : ∀ a b c, R a b → R b c → R a c)
    (hstep : ∀ s a s', Inv s → ok s a → step s a = some s' → Inv s' ∧ R s s') :
    ∀ (as : List α) (s s' : σ), Inv s → Meets step ok s as → run step s as = some s' → R s s'
  | [], s, s', _, _, hr => by
    simp only [run_nil, Option.some.injEq] at hr
    exact hr ▸ refl s
  | a :: as, s, s', hs, hm, hr => by
    obtain ⟨m, ha, hr⟩ := run_cons.mp hr
    obtain ⟨hi, hR⟩ := hstep s a m hs hm.1 ha
    exact trans s m s' hR (run_relates refl trans hstep as m s' hi (hm.2 m ha) hr)

/-- **The refinement rule.** Where every step is matched by steps of another machine, none of them or
several, so is every run. -/
theorem run_refines {τ β : Type} {astep : τ → β → Option τ} {R : σ → τ → Prop}
    (hstep : ∀ s a s' t, R s t → step s a = some s' → ∃ bs t', run astep t bs = some t' ∧ R s' t')
    {as : List α} : ∀ {s s' : σ} {t : τ}, R s t → run step s as = some s' →
      ∃ bs t', run astep t bs = some t' ∧ R s' t' := by
  induction as with
  | nil =>
    intro s s' t hR hr
    simp only [run_nil, Option.some.injEq] at hr
    exact ⟨[], t, rfl, hr ▸ hR⟩
  | cons a as ih =>
    intro s s' t hR hr
    obtain ⟨m, ha, hr⟩ := run_cons.mp hr
    obtain ⟨bs, u, hbs, hu⟩ := hstep s a m t hR ha
    obtain ⟨cs, t', hcs, ht'⟩ := ih hu hr
    exact ⟨bs ++ cs, t', run_append.mpr ⟨u, hbs, hcs⟩, ht'⟩

end Runs
