import Mathlib.Data.List.Basic

/-
  Writers into a bounded buffer.

  A writer is told how much room is left and answers what it stores, or `none`
  when it stores past the end. It `Fills` a text when into every room it stores
  the beginning of that text; a writer that needs room for its first element
  fills one from 1 on (`FillsFrom 1`). The rules:

    `fills_copy`, `fillsFrom_one`   the elementary writers;
    `FillsFrom.andThen`,
    `fills_concat`                  one after another, in what room is left.

  Nothing here names a program.
-/
namespace Bounded

variable {α : Type}

/-- What is stored when there is room for that many elements. -/
abbrev Writer (α : Type) := Nat → Option (List α)

/-- `*buf++ = x` without a check. -/
def one (x : α) : Writer α
  | 0 => none
  | _ + 1 => some [x]

/-- As much of the list as there is room for. -/
def copy (xs : List α) : Writer α := fun room => some (xs.take room)

/-- One writer, then the other in the room that is left. -/
def andThen (w v : Writer α) : Writer α := fun room =>
  (w room).bind fun a => (v (room - a.length)).map (a ++ ·)

/-- Writers one after another. -/
def concat : List (Writer α) → Writer α
  | [] => copy []
  | w :: ws => andThen w (concat ws)

/-- Given room for `k` elements at least, the writer stores the beginning of `out`. -/
def FillsFrom (k : Nat) (w : Writer α) (out : List α) : Prop :=
  ∀ room, k ≤ room → w room = some (out.take room)

/-- The writer stores the beginning of `out`, into any room. -/
abbrev Fills (w : Writer α) (out : List α) : Prop := FillsFrom 0 w out

theorem fills_copy (xs : List α) : Fills (copy xs) xs := fun _ _ => rfl

theorem fillsFrom_one (x : α) : FillsFrom 1 (one x) [x] := by
  intro room hroom
  cases room with
  | zero => cases hroom
  | succ room => simp [one]

theorem Fills.from {w : Writer α} {out : List α} (h : Fills w out) (k : Nat) :
    FillsFrom k w out := fun room _ => h room (Nat.zero_le _)

/-- What follows the beginning of a text is the beginning of what follows it. -/
theorem take_append_take (a b : List α) (n : Nat) :
    a.take n ++ b.take (n - (a.take n).length) = (a ++ b).take n := by
  rw [List.take_append, List.length_take]
  by_cases h : n ≤ a.length
  · have hzero : n - a.length = 0 := Nat.sub_eq_zero_of_le h
    rw [Nat.min_eq_left h, Nat.sub_self, hzero]
  · rw [Nat.min_eq_right (Nat.le_of_not_le h)]

/-- The second writer must cope with any room; the first has the room of both. -/
theorem FillsFrom.andThen {k : Nat} {w v : Writer α} {a b : List α} (hw : FillsFrom k w a)
    (hv : Fills v b) : FillsFrom k (andThen w v) (a ++ b) := by
  intro room hroom
  unfold Bounded.andThen
  rw [hw room hroom, Option.bind_some, hv _ (Nat.zero_le _), Option.map_some, take_append_take]

/-- Writers that cope with any room do so one after another. -/
theorem fills_concat {ι : Type} {l : List ι} {w : ι → Writer α} {out : ι → List α}
    (h : ∀ i ∈ l, Fills (w i) (out i)) : Fills (concat (l.map w)) (l.map out).flatten := by
  induction l with
  | nil => exact fills_copy []
  | cons i l ih =>
    have hrest := ih fun j hj => h j (List.mem_cons_of_mem _ hj)
    exact FillsFrom.andThen (h i (List.mem_cons_self ..)) hrest

end Bounded
