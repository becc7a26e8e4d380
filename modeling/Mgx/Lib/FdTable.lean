import Mathlib.Data.List.Basic

/-
  A table of numbered slots, where a new entry gets the lowest number that is free.

  The results say what a lookup finds after an entry was opened or closed, and
  that a number which is taken is not given out again (`get_lowest`).

  Nothing here names a program.
-/
namespace FdTable

variable {α : Type}

/-- What number `n` stands for. -/
def get (t : List (Option α)) (n : Nat) : Option α := t[n]?.join

/-- The lowest number that is free. -/
def lowest (t : List (Option α)) : Nat := t.findIdx Option.isNone

/-- A new entry. -/
def opened (t : List (Option α)) (x : α) : List (Option α) :=
  if lowest t < t.length then t.set (lowest t) (some x) else t ++ [some x]

/-- The number is free again. -/
def closed (t : List (Option α)) (n : Nat) : List (Option α) := t.set n none

theorem lowest_le (t : List (Option α)) : lowest t ≤ t.length := List.findIdx_le_length

@[simp] theorem get_lowest (t : List (Option α)) : get t (lowest t) = none := by
  unfold get
  by_cases hlt : lowest t < t.length
  · have hnone : (t[lowest t]).isNone = true := List.findIdx_getElem (w := hlt)
    rw [List.getElem?_eq_getElem hlt, Option.join_some, Option.isNone_iff_eq_none.mp hnone]
  · rw [List.getElem?_eq_none (Nat.le_of_not_lt hlt)]
    rfl

@[simp] theorem get_opened_self (t : List (Option α)) (x : α) :
    get (opened t x) (lowest t) = some x := by
  unfold get opened
  split
  next hlt => rw [List.getElem?_set_self hlt, Option.join_some]
  next hge =>
    have hlen : lowest t = t.length := Nat.le_antisymm (lowest_le t) (Nat.le_of_not_lt hge)
    rw [hlen, List.getElem?_concat_length, Option.join_some]

theorem get_opened_other {t : List (Option α)} {n : Nat} (h : n ≠ lowest t) (x : α) :
    get (opened t x) n = get t n := by
  unfold get opened
  split
  next hlt => rw [List.getElem?_set_ne (Ne.symm h)]
  next hge =>
    have hlen : lowest t = t.length := Nat.le_antisymm (lowest_le t) (Nat.le_of_not_lt hge)
    rw [hlen] at h
    rcases Nat.lt_or_gt_of_ne h with hn | hn
    · rw [List.getElem?_append_left hn]
    · have hout : (t ++ [some x]).length ≤ n := by
        rw [List.length_append, List.length_singleton]
        exact hn
      rw [List.getElem?_eq_none hout, List.getElem?_eq_none (Nat.le_of_lt hn)]

@[simp] theorem get_closed_self (t : List (Option α)) (n : Nat) : get (closed t n) n = none := by
  unfold get closed
  by_cases hlt : n < t.length
  · rw [List.getElem?_set_self hlt, Option.join_some]
  · rw [List.getElem?_eq_none (by rw [List.length_set]; exact Nat.le_of_not_lt hlt)]
    rfl

theorem get_closed_other {t : List (Option α)} {n m : Nat} (h : m ≠ n) :
    get (closed t n) m = get t m := by
  unfold get closed
  rw [List.getElem?_set_ne (Ne.symm h)]

end FdTable
