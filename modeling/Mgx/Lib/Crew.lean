import Mathlib.Algebra.GroupWithZero.Nat
import Mathlib.Data.List.Count
import Mathlib.Data.List.Perm.Basic

/-
  A crew of threads, each at some place of its code.

  `crew[i]? = some p` says that thread `i` is at `p`, and `crew.set i q` moves it.
  A move changes a count of threads, or a sum over them, by what the two places
  count for (`countP_move`, `sum_move`), and what the threads have in their hands
  by what the one that moves takes or gives (`hands_move`, `hands_stay`); after it
  a thread is the one that moved, or where it was (`getElem?_move`).

  `LockOk` says that the threads inside the critical section are the one that
  holds the mutex. Two crews may share a mutex; `me` is how a thread of this one
  is named as its holder.

  Nothing here names a program.
-/
namespace Crew

variable {π : Type} {crew : List π} {i : Nat} {p q : π}

/-- The number of threads that satisfy `f`, before and after a move. -/
theorem countP_move (f : π → Bool) (hp : crew[i]? = some p) :
    (crew.set i q).countP f + (if f p then 1 else 0) = crew.countP f + (if f q then 1 else 0) := by
  induction crew generalizing i with
  | nil => cases hp
  | cons r crew ih =>
    cases i with
    | zero =>
      obtain rfl : r = p := Option.some.inj hp
      rw [List.set_cons_zero, List.countP_cons, List.countP_cons]
      omega
    | succ i =>
      have := ih (i := i) hp
      rw [List.set_cons_succ, List.countP_cons, List.countP_cons]
      omega

/-- A sum over the threads, before and after a move. -/
theorem sum_move (f : π → Nat) (hp : crew[i]? = some p) :
    ((crew.set i q).map f).sum + f p = (crew.map f).sum + f q := by
  induction crew generalizing i with
  | nil => cases hp
  | cons r crew ih =>
    cases i with
    | zero =>
      obtain rfl : r = p := Option.some.inj hp
      simp only [List.set_cons_zero, List.map_cons, List.sum_cons]
      omega
    | succ i =>
      have := ih (i := i) hp
      simp only [List.set_cons_succ, List.map_cons, List.sum_cons]
      omega

/-- What the threads have in their hands, before and after a move. -/
theorem hands_move {α : Type} (f : π → Option α) (hp : crew[i]? = some p) :
    ((f p).toList ++ (crew.set i q).filterMap f).Perm ((f q).toList ++ crew.filterMap f) := by
  have hcons : ∀ (r : π) (l : List π), (r :: l).filterMap f = (f r).toList ++ l.filterMap f := by
    intro r l
    cases hr : f r <;> simp [hr]
  induction crew generalizing i with
  | nil => cases hp
  | cons r crew ih =>
    cases i with
    | zero =>
      obtain rfl : r = p := Option.some.inj hp
      rw [List.set_cons_zero, hcons, hcons, ← List.append_assoc, ← List.append_assoc]
      exact List.perm_append_comm.append_right _
    | succ i =>
      rw [List.set_cons_succ, hcons, hcons, ← List.append_assoc, ← List.append_assoc]
      calc List.Perm ((f p).toList ++ (f r).toList ++ (crew.set i q).filterMap f)
            ((f r).toList ++ ((f p).toList ++ (crew.set i q).filterMap f)) := by
            rw [← List.append_assoc]
            exact List.perm_append_comm.append_right _
        List.Perm _ ((f r).toList ++ ((f q).toList ++ crew.filterMap f)) := (ih hp).append_left _
        List.Perm _ ((f q).toList ++ (f r).toList ++ crew.filterMap f) := by
            rw [← List.append_assoc]
            exact List.perm_append_comm.append_right _

/-- A thread that keeps what it has in its hands. -/
theorem hands_stay {α : Type} {f : π → Option α} (hp : crew[i]? = some p) (hsame : f q = f p) :
    (crew.set i q).filterMap f = crew.filterMap f := by
  induction crew generalizing i with
  | nil => cases hp
  | cons r crew ih =>
    cases i with
    | zero =>
      obtain rfl : r = p := Option.some.inj hp
      rw [List.set_cons_zero, List.filterMap_cons, List.filterMap_cons, hsame]
    | succ i => rw [List.set_cons_succ, List.filterMap_cons, List.filterMap_cons, ih hp]

/-- A thread that satisfies `f` is counted. -/
theorem countP_pos_of_get {f : π → Bool} (hp : crew[i]? = some p) (hf : f p = true) :
    0 < crew.countP f :=
  List.countP_pos_iff.mpr ⟨p, List.mem_of_getElem? hp, hf⟩

/-- Where the threads are after a move. -/
theorem getElem?_move (hp : crew[i]? = some p) {k : Nat} {r : π} :
    (crew.set i q)[k]? = some r ↔ k = i ∧ q = r ∨ k ≠ i ∧ crew[k]? = some r := by
  obtain ⟨hi, -⟩ := List.getElem?_eq_some_iff.mp hp
  rw [List.getElem?_set]
  by_cases hk : i = k
  · subst hk
    simp [hi]
  · simp [hk, Ne.symm hk]

/-- No thread satisfies `f` if each of them does not. -/
theorem countP_eq_zero_of_forall {f : π → Bool}
    (h : ∀ (k : Nat) r, crew[k]? = some r → f r = false) : crew.countP f = 0 := by
  apply List.countP_eq_zero.mpr
  intro r hr
  obtain ⟨k, hk⟩ := List.mem_iff_getElem?.mp hr
  rw [h k r hk]
  exact Bool.false_ne_true

/-! ## A mutex -/

variable {η : Type} {inLock : π → Bool} {me : Nat → η} {mutex : Option η}

/-- The threads in the critical section are those that hold the mutex. -/
def LockOk (crew : List π) (inLock : π → Bool) (me : Nat → η) (mutex : Option η) : Prop :=
  ∀ i p, crew[i]? = some p → (inLock p = true ↔ mutex = some (me i))

/-- A thread moves and stays inside, or outside. -/
theorem LockOk.stay (h : LockOk crew inLock me mutex) (hp : crew[i]? = some p)
    (hsame : inLock q = inLock p) : LockOk (crew.set i q) inLock me mutex := by
  intro k r hk
  obtain ⟨rfl, rfl⟩ | ⟨-, hk⟩ := (getElem?_move hp).mp hk
  · rw [hsame]
    exact h k p hp
  · exact h k r hk

/-- A thread takes the free mutex. -/
theorem LockOk.acquire (hme : Function.Injective me) (h : LockOk crew inLock me none)
    (hp : crew[i]? = some p) (hin : inLock q = true) :
    LockOk (crew.set i q) inLock me (some (me i)) := by
  intro k r hk
  obtain ⟨rfl, rfl⟩ | ⟨hne, hk⟩ := (getElem?_move hp).mp hk
  · exact ⟨fun _ => rfl, fun _ => hin⟩
  · constructor
    · intro hr
      exact absurd ((h k r hk).mp hr) (by simp)
    · intro hm
      exact absurd (hme (Option.some.inj hm)).symm hne

/-- A thread gives the mutex back. -/
theorem LockOk.release (hme : Function.Injective me) (h : LockOk crew inLock me mutex)
    (hp : crew[i]? = some p) (hin : inLock p = true) (hout : inLock q = false) :
    LockOk (crew.set i q) inLock me none := by
  have hmutex : mutex = some (me i) := (h i p hp).mp hin
  intro k r hk
  obtain ⟨rfl, rfl⟩ | ⟨hne, hk⟩ := (getElem?_move hp).mp hk
  · rw [hout]
    simp
  · constructor
    · intro hr
      have hm := (h k r hk).mp hr
      rw [hmutex] at hm
      exact absurd (hme (Option.some.inj hm)).symm hne
    · intro hm
      cases hm

/-- What another crew does with the mutex. -/
theorem LockOk.of_other {mutex' : Option η} (h : LockOk crew inLock me mutex)
    (hother : ∀ i, mutex ≠ some (me i)) (hother' : ∀ i, mutex' ≠ some (me i)) :
    LockOk crew inLock me mutex' := by
  intro i p hp
  constructor
  · intro hin
    exact absurd ((h i p hp).mp hin) (hother i)
  · intro hm
    exact absurd hm (hother' i)

/-- While nobody of the crew holds the mutex, nobody is inside. -/
theorem LockOk.countP_eq_zero (h : LockOk crew inLock me mutex) (hnot : ∀ i, mutex ≠ some (me i))
    {f : π → Bool} (hf : ∀ r, f r = true → inLock r = true) : crew.countP f = 0 := by
  apply countP_eq_zero_of_forall
  intro k r hr
  cases hfr : f r with
  | false => rfl
  | true => exact absurd ((h k r hr).mp (hf r hfr)) (hnot k)

end Crew
