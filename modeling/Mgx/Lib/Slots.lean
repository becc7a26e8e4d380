import Mathlib.Data.List.Nodup

/-
  Owners that each hold at most one item.

  `held owners slot` lists the items held. Storing into the slot of one owner
  moves exactly the item it held and the item it gets (`count_held_set`), which
  is all an argument about who owns an item needs.

  Nothing here names a program.
-/
namespace Slots

variable {α β : Type}

/-- The items held, in the order of their owners. -/
def held (owners : List α) (slot : α → Option β) : List β := owners.filterMap slot

theorem held_cons (o : α) (owners : List α) (slot : α → Option β) :
    held (o :: owners) slot = (slot o).toList ++ held owners slot := by
  unfold held
  cases h : slot o with
  | none => simp [h]
  | some x => simp [h]

theorem held_congr {owners : List α} {slot slot' : α → Option β}
    (h : ∀ o ∈ owners, slot' o = slot o) : held owners slot' = held owners slot :=
  List.filterMap_congr h

/-- An owner that holds nothing adds nothing. -/
theorem held_append_none {owners : List α} (slot : α → Option β) {o : α} (h : slot o = none) :
    held (owners ++ [o]) slot = held owners slot := by
  simp [held, List.filterMap_append, h]

/-- The slot of one owner changes: the item it held is gone, the item it gets is there. -/
theorem count_held_set [DecidableEq β] {owners : List α} {slot slot' : α → Option β} {o : α}
    (hnodup : owners.Nodup) (ho : o ∈ owners) (hother : ∀ p, p ≠ o → slot' p = slot p) (x : β) :
    (held owners slot').count x + (slot o).toList.count x =
      (held owners slot).count x + (slot' o).toList.count x := by
  induction owners with
  | nil => cases ho
  | cons p owners ih =>
    obtain ⟨hp, hnodup⟩ := List.nodup_cons.mp hnodup
    rw [held_cons, held_cons, List.count_append, List.count_append]
    rcases List.mem_cons.mp ho with rfl | ho
    · -- it is the first owner: the others hold what they held
      have hrest : held owners slot' = held owners slot :=
        held_congr fun q hq => hother q fun he => hp (he ▸ hq)
      rw [hrest]
      omega
    · have hne : p ≠ o := fun he => hp (he ▸ ho)
      have := ih hnodup ho
      rw [hother p hne]
      omega

end Slots
