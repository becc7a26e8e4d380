import Mathlib.Data.List.Perm.Basic
import Mathlib.Order.Lattice

/-
  An ordered multimap, as the list of its elements in the order of the iteration.

  `emplace` puts an element behind all whose key is not greater. `Holds ins q` says
  what such a map is after the elements `ins` were put into it in this order, apart
  from those taken out since: the keys of `q` do not decrease, and the elements under
  one key come in the order of `ins`. It is kept by `emplace` (`Holds.emplace`), by
  taking the first element (`Holds.first`), which is the oldest of those with the
  least key, and by splitting at a key (`Holds.upTo`, `Holds.beyond`).

  Nothing here names a program.
-/
namespace Multimap

variable {α κ : Type} [LinearOrder κ] {key : α → κ}

/-- Insert behind the elements whose key is not greater. -/
def emplace (key : α → κ) (x : α) (q : List α) : List α :=
  q.takeWhile (fun y => key y ≤ key x) ++ x :: q.dropWhile (fun y => key y ≤ key x)

/-- `q` iterates over the elements `ins`, by their keys and those under one key by their age. -/
structure Holds (key : α → κ) (ins q : List α) : Prop where
  sorted : q.Pairwise (fun x y => key x ≤ key y)
  fifo : ∀ k, q.filter (fun x => key x = k) = ins.filter (fun x => key x = k)

/-! ## Splitting at a key -/

theorem takeWhile_le {q : List α} (hq : q.Pairwise (fun x y => key x ≤ key y)) (k : κ) :
    q.takeWhile (fun x => key x ≤ k) = q.filter (fun x => key x ≤ k) := by
  induction q with
  | nil => rfl
  | cons x q ih =>
    obtain ⟨hx, hq⟩ := List.pairwise_cons.mp hq
    by_cases hxk : key x ≤ k
    · rw [List.takeWhile_cons_of_pos (by simpa using hxk),
        List.filter_cons_of_pos (by simpa using hxk), ih hq]
    · rw [List.takeWhile_cons_of_neg (by simpa using hxk),
        List.filter_cons_of_neg (by simpa using hxk)]
      -- no later key is smaller
      refine (List.filter_eq_nil_iff.mpr fun y hy hyk => hxk ?_).symm
      exact le_trans (hx y hy) (of_decide_eq_true hyk)

theorem dropWhile_le {q : List α} (hq : q.Pairwise (fun x y => key x ≤ key y)) (k : κ) :
    q.dropWhile (fun x => key x ≤ k) = q.filter (fun x => k < key x) := by
  induction q with
  | nil => rfl
  | cons x q ih =>
    obtain ⟨hx, hq⟩ := List.pairwise_cons.mp hq
    by_cases hxk : key x ≤ k
    · rw [List.dropWhile_cons_of_pos (by simpa using hxk), List.filter_cons_of_neg
        (by simpa using hxk), ih hq]
    · rw [List.dropWhile_cons_of_neg (by simpa using hxk)]
      refine (List.filter_eq_self.mpr fun y hy => decide_eq_true ?_).symm
      rcases List.mem_cons.mp hy with rfl | hy
      · exact not_le.mp hxk
      · exact lt_of_lt_of_le (not_le.mp hxk) (hx y hy)

section
variable {ins q : List α}

theorem Holds.nil : Holds key [] [] := ⟨List.Pairwise.nil, fun _ => rfl⟩

/-- A list whose keys do not decrease is the map of its own elements. -/
theorem Holds.of_sorted (hq : q.Pairwise (fun x y => key x ≤ key y)) : Holds key q q :=
  ⟨hq, fun _ => rfl⟩

theorem Holds.perm (h : Holds key ins q) : q.Perm ins := by
  classical
  refine List.perm_iff_count.mpr fun x => ?_
  have hx : decide (key x = key x) = true := decide_eq_true rfl
  rw [← List.count_filter (p := fun y => decide (key y = key x)) hx,
    ← List.count_filter (l := ins) (p := fun y => decide (key y = key x)) hx, h.fifo]

/-- Putting in one more element. -/
theorem Holds.emplace (h : Holds key ins q) (x : α) :
    Holds key (ins ++ [x]) (emplace key x q) := by
  have htake := takeWhile_le h.sorted (key x)
  have hdrop := dropWhile_le h.sorted (key x)
  have hlater : ∀ y ∈ q.dropWhile (fun y => key y ≤ key x), key x < key y := by
    intro y hy
    rw [hdrop] at hy
    exact of_decide_eq_true (List.mem_filter.mp hy).2
  have hearlier : ∀ y ∈ q.takeWhile (fun y => key y ≤ key x), key y ≤ key x := by
    intro y hy
    rw [htake] at hy
    exact of_decide_eq_true (List.mem_filter.mp hy).2
  constructor
  · refine List.pairwise_append.mpr ⟨h.sorted.sublist (List.takeWhile_sublist _),
      List.pairwise_cons.mpr ⟨fun y hy => (hlater y hy).le,
        h.sorted.sublist (List.dropWhile_sublist _)⟩, fun y hy z hz => ?_⟩
    rcases List.mem_cons.mp hz with rfl | hz
    · exact hearlier y hy
    · exact le_trans (hearlier y hy) (hlater z hz).le
  · intro k
    rw [Multimap.emplace, List.filter_append, List.filter_append, ← h.fifo k]
    by_cases hk : key x = k
    · -- those behind have another key
      have hnone : (q.dropWhile (fun y => key y ≤ key x)).filter (fun y => key y = k) = [] :=
        List.filter_eq_nil_iff.mpr fun y hy hyk =>
          (hlater y hy).ne (hk.trans (of_decide_eq_true hyk).symm)
      have hall : q.filter (fun y => key y = k) =
          (q.takeWhile (fun y => key y ≤ key x)).filter (fun y => key y = k) := by
        conv_lhs => rw [← List.takeWhile_append_dropWhile (p := fun y => decide (key y ≤ key x))
          (l := q)]
        rw [List.filter_append, hnone, List.append_nil]
      rw [List.filter_cons_of_pos (by simpa using hk), List.filter_cons_of_pos (by simpa using hk),
        hnone, hall]
      rfl
    · rw [List.filter_cons_of_neg (by simpa using hk), List.filter_cons_of_neg (by simpa using hk),
        ← List.filter_append, List.takeWhile_append_dropWhile]
      simp

/-- Putting in several, one after the other. -/
theorem Holds.emplaceAll (h : Holds key ins q) : ∀ xs : List α,
    Holds key (ins ++ xs) (xs.foldl (fun q x => Multimap.emplace key x q) q) := by
  intro xs
  induction xs generalizing ins q with
  | nil => simpa using h
  | cons x xs ih =>
    rw [List.foldl_cons]
    simpa using ih (h.emplace x)

/-- **The first element** is the oldest of those with the least key, and the rest of the map is what
the others make. -/
theorem Holds.first {x : α} (h : Holds key ins (x :: q)) :
    ∃ pre post, ins = pre ++ x :: post ∧ (∀ y ∈ pre, key x < key y) ∧
      (∀ y ∈ post, key x ≤ key y) ∧ Holds key (pre ++ post) q := by
  obtain ⟨hx, hq⟩ := List.pairwise_cons.mp h.sorted
  have hleast : ∀ y ∈ ins, key x ≤ key y := by
    intro y hy
    rcases List.mem_cons.mp (h.perm.mem_iff.mpr hy) with rfl | hy
    · exact le_refl _
    · exact hx y hy
  have hfilter := (h.fifo (key x)).symm
  rw [List.filter_cons_of_pos (by simp)] at hfilter
  obtain ⟨pre, post, rfl, hpre, -, hpost⟩ := List.filter_eq_cons_iff.mp hfilter
  refine ⟨pre, post, rfl, fun y hy => ?_, fun y hy => hleast y (by simp [hy]), hq, fun k => ?_⟩
  · have hne : ¬ key y = key x := by simpa using hpre y hy
    exact lt_of_le_of_ne (hleast y (by simp [hy])) (Ne.symm hne)
  · rw [List.filter_append]
    by_cases hk : key x = k
    · subst hk
      rw [← hpost, List.filter_eq_nil_iff.mpr hpre, List.nil_append]
    · have hsame := h.fifo k
      rwa [List.filter_append, List.filter_cons_of_neg (by simpa using hk),
        List.filter_cons_of_neg (by simpa using hk)] at hsame

theorem Holds.filter (h : Holds key ins q) (p : α → Bool) :
    Holds key (ins.filter p) (q.filter p) := by
  refine ⟨h.sorted.sublist List.filter_sublist, fun k => ?_⟩
  rw [List.filter_comm, h.fifo k, List.filter_comm]

/-- The elements up to a key. -/
theorem Holds.upTo (h : Holds key ins q) (k : κ) :
    Holds key (ins.filter (fun x => key x ≤ k)) (q.takeWhile (fun x => key x ≤ k)) := by
  rw [takeWhile_le h.sorted]
  exact h.filter _

/-- The elements beyond it. -/
theorem Holds.beyond (h : Holds key ins q) (k : κ) :
    Holds key (ins.filter (fun x => k < key x)) (q.dropWhile (fun x => key x ≤ k)) := by
  rw [dropWhile_le h.sorted]
  exact h.filter _

end

/-- An element with a key beyond `k` leaves those up to `k` in front. -/
theorem emplace_upTo {k : κ} {due : List α} (hdue : ∀ y ∈ due, key y ≤ k) {x : α}
    (hx : k < key x) (rest : List α) :
    emplace key x (due ++ rest) = due ++ emplace key x rest := by
  have hall : ∀ y ∈ due, decide (key y ≤ key x) = true :=
    fun y hy => decide_eq_true (le_trans (hdue y hy) hx.le)
  rw [emplace, List.takeWhile_append_of_pos hall, List.dropWhile_append_of_pos hall,
    List.append_assoc]
  rfl

end Multimap
