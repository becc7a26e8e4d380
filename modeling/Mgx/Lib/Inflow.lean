import Mathlib.Data.List.Basic

/-
  A stream read while it arrives.

  What a reader finds on a non-blocking stream is a list of items: a value, the
  end of what has arrived so far (`gap`: one read stops there, the next one finds
  more), or a read that is answered with `e` in place of values (`stop e`).

  `Uncut t xs` says that a reader that starts at `t` gets the values `xs` without
  a stop, whatever the sizes of its reads.

  Nothing here names a program.
-/
namespace Inflow

/-- One item of what a stream holds for its reader. -/
inductive Item (α ε : Type) where
  | val (a : α)
  | gap
  | stop (e : ε)
  deriving DecidableEq, Repr

variable {α ε : Type}

/-- The values that are there now, at most `n` of them, and what comes after. -/
def available : Nat → List (Item α ε) → List α × List (Item α ε)
  | n + 1, .val a :: l => (a :: (available n l).1, (available n l).2)
  | _, l => ([], l)

/-- One read of at most `n` values: the values, or what stopped it (`none`: nothing is there). -/
def read (n : Nat) : List (Item α ε) → Except (Option ε) (List α) × List (Item α ε)
  | [] => (.error none, [])
  | .gap :: l => read n l
  | .stop e :: l => (.error (some e), l)
  | .val a :: l => (.ok (available n (.val a :: l)).1, (available n (.val a :: l)).2)

/-- All values that arrive. -/
def values : List (Item α ε) → List α
  | [] => []
  | .val a :: l => a :: values l
  | _ :: l => values l

theorem values_append (l m : List (Item α ε)) : values (l ++ m) = values l ++ values m := by
  induction l with
  | nil => rfl
  | cons i l ih => cases i <;> simp [values, ih]

/-- The values `xs` arrive in the items `t` without a stop; no gap comes after the last of them. -/
inductive Uncut : List (Item α ε) → List α → Prop where
  | nil : Uncut [] []
  | gap {t : List (Item α ε)} {a : α} {xs : List α} (h : Uncut t (a :: xs)) :
      Uncut (.gap :: t) (a :: xs)
  | val {t : List (Item α ε)} {xs : List α} (a : α) (h : Uncut t xs) : Uncut (.val a :: t) (a :: xs)

/-- All at once. -/
theorem Uncut.whole : ∀ xs : List α, Uncut (ε := ε) (xs.map .val) xs
  | [] => .nil
  | a :: xs => .val a (whole xs)

/-- What arrives uncut arrives uncut in two parts. -/
theorem Uncut.split {t : List (Item α ε)} {xs ys : List α} (h : Uncut t (xs ++ ys)) :
    ∃ t₁ t₂, t = t₁ ++ t₂ ∧ Uncut t₁ xs ∧ Uncut t₂ ys := by
  induction t generalizing xs with
  | nil =>
    obtain ⟨rfl, rfl⟩ : xs = [] ∧ ys = [] := by
      generalize hz : xs ++ ys = zs at h
      cases h
      exact List.append_eq_nil_iff.mp hz
    exact ⟨[], [], rfl, .nil, .nil⟩
  | cons i t ih =>
    cases xs with
    | nil => exact ⟨[], i :: t, rfl, .nil, h⟩
    | cons a xs =>
      cases h with
      | gap h =>
        have h : Uncut t ((a :: xs) ++ ys) := h
        obtain ⟨t₁, t₂, rfl, h₁, h₂⟩ := ih h
        exact ⟨.gap :: t₁, t₂, rfl, .gap h₁, h₂⟩
      | val _ h =>
        obtain ⟨t₁, t₂, rfl, h₁, h₂⟩ := ih h
        exact ⟨.val a :: t₁, t₂, rfl, .val a h₁, h₂⟩

theorem Uncut.gap_of_ne_nil {t : List (Item α ε)} {xs : List α} (h : Uncut t xs) (hne : xs ≠ []) :
    Uncut (.gap :: t) xs := by
  cases xs with
  | nil => exact absurd rfl hne
  | cons a xs => exact .gap h

/-- Two parts that arrive uncut, one right after the other. -/
theorem Uncut.append {t u : List (Item α ε)} {xs ys : List α} (ht : Uncut t xs)
    (hu : Uncut u ys) : Uncut (t ++ u) (xs ++ ys) := by
  induction ht with
  | nil => exact hu
  | gap _ ih => exact .gap ih
  | val a _ ih => exact .val a ih

theorem Uncut.values_eq {t : List (Item α ε)} {xs : List α} (h : Uncut t xs) : values t = xs := by
  induction h with
  | nil => rfl
  | gap _ ih => exact ih
  | val a _ ih => exact congrArg (a :: ·) ih

theorem Uncut.no_stop {t : List (Item α ε)} {xs : List α} (h : Uncut t xs) (e : ε) :
    .stop e ∉ t := by
  induction h with
  | nil => exact List.not_mem_nil
  | gap _ ih => simpa using ih
  | val a _ ih => simpa using ih

/-- What holds past a gap holds of all items in front of which the first value has arrived. -/
theorem Uncut.cons_induction {t : List (Item α ε)} {a : α} {xs : List α} (h : Uncut t (a :: xs))
    {motive : List (Item α ε) → Prop} (gap : ∀ t, motive t → motive (.gap :: t))
    (val : ∀ t, Uncut t xs → motive (.val a :: t)) : motive t := by
  generalize hz : a :: xs = zs at h
  induction h with
  | nil => cases hz
  | gap _ ih => exact gap _ (ih hz)
  | val b h _ =>
    cases hz
    exact val _ h

end Inflow
