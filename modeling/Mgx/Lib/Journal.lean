import Mathlib.Data.List.Basic

/-
  A journal.

  Chunks of data are written one after the other, each under a key. What stands
  under a key is its chunks put together, in the order of writing.

  Nothing here names a program.
-/
namespace Journal

variable {κ α : Type} [DecidableEq κ]

/-- What was written under `k`. -/
def under (k : κ) (log : List (κ × List α)) : List α :=
  (log.filter fun x => x.1 == k).flatMap Prod.snd

@[simp] theorem under_nil (k : κ) : under k ([] : List (κ × List α)) = [] := rfl

theorem under_snoc_self (k : κ) (log : List (κ × List α)) (x : List α) :
    under k (log ++ [(k, x)]) = under k log ++ x := by
  simp [under]

theorem under_snoc_other {k k' : κ} (h : k' ≠ k) (log : List (κ × List α)) (x : List α) :
    under k (log ++ [(k', x)]) = under k log := by
  simp [under, h]

/-- Nothing stands under a key that was never used. -/
theorem under_eq_nil {k : κ} {log : List (κ × List α)} (h : ∀ x ∈ log, x.1 ≠ k) :
    under k log = [] := by
  have hfilter : log.filter (fun x => x.1 == k) = [] := by
    apply List.filter_eq_nil_iff.mpr
    intro x hx
    simpa using h x hx
  rw [under, hfilter, List.flatMap_nil]

end Journal
