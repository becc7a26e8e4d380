import Mathlib.Data.List.Nodup

/-
  A table whose entries have a key and an owner.

  Keys are distinct. Removing the entry under a key takes one entry from one
  owner and leaves every other entry (`remove_spec`).

  Nothing here names a program.
-/
namespace KeyTable

variable {δ κ ι : Type} [DecidableEq κ]

/-- The table without its entry under `k`, if it has one. -/
def remove (key : δ → κ) (k : κ) (t : List δ) : List δ := t.eraseP (fun d => key d == k)

theorem remove_sublist (key : δ → κ) (k : κ) (t : List δ) : (remove key k t).Sublist t :=
  List.eraseP_sublist

/-- Removing the entry `d`, when its owner has no other: the owner has none left, and the others
have what they had. -/
theorem remove_spec [DecidableEq ι] {key : δ → κ} {owner : δ → ι} {t : List δ} {d : δ}
    (hnodup : (t.map key).Nodup) (hd : d ∈ t) (hone : (t.map owner).count (owner d) ≤ 1) :
    (∀ i, (t.map owner).count i = ((remove key (key d) t).map owner).count i + [owner d].count i) ∧
    ((remove key (key d) t).map key).Nodup ∧
    ∀ x ∈ remove key (key d) t, x ∈ t ∧ owner x ≠ owner d := by
  obtain ⟨d', l₁, l₂, -, hkey, hsplit, herase⟩ :=
    List.exists_of_eraseP (p := fun x => key x == key d) hd (by simp)
  have hremove : remove key (key d) t = l₁ ++ l₂ := herase
  -- the keys are distinct, so the entry that went is `d`
  obtain rfl : d' = d :=
    List.inj_on_of_nodup_map hnodup (by rw [hsplit]; simp) hd (beq_iff_eq.mp hkey)
  have hcount : ∀ i, (t.map owner).count i =
      ((l₁ ++ l₂).map owner).count i + [owner d'].count i := by
    intro i
    rw [hsplit]
    simp only [List.map_append, List.map_cons, List.count_append, List.count_cons, List.count_nil]
    omega
  have hsub := remove_sublist key (key d') t
  rw [hremove] at hsub ⊢
  refine ⟨hcount, hnodup.sublist (hsub.map _), fun x hx => ⟨hsub.subset hx, fun he => ?_⟩⟩
  rw [hcount, List.count_cons_self] at hone
  have hpos : 0 < ((l₁ ++ l₂).map owner).count (owner d') :=
    List.count_pos_iff.mpr (he ▸ List.mem_map_of_mem hx)
  omega

end KeyTable
