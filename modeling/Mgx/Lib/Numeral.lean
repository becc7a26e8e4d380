import Mathlib.Data.Nat.Digits.Defs

/-
  Numerals: a number written in a base, the highest digit first.

  `write` puts the digits of `Nat.digits` into an alphabet, with one digit for
  zero; `read` is the value of a string, digit by digit. A writer that produces the
  digits from the last to the first is compared with `write` by `write_of_lt` and
  `write_of_le`.

  Nothing here names a program.
-/
namespace Numeral

variable {α : Type} {b : Nat} {digit : Nat → α} {value : α → Nat}

/-- The number `v` in base `b`. -/
def write (b : Nat) (digit : Nat → α) (v : Nat) : List α :=
  if v = 0 then [digit 0] else ((Nat.digits b v).map digit).reverse

/-- The value of a string of digits. -/
def read (b : Nat) (value : α → Nat) (ds : List α) : Nat := ds.foldl (fun n d => n * b + value d) 0

/-- A number below the base is one digit. -/
theorem write_of_lt {v : Nat} (hv : v < b) : write b digit v = [digit v] := by
  unfold write
  by_cases hzero : v = 0
  · rw [if_pos hzero, hzero]
  · rw [if_neg hzero, Nat.digits_of_lt b v hzero hv]
    rfl

/-- The last digit is the remainder, the digits in front of it are the quotient. -/
theorem write_of_le (hb : 1 < b) {v : Nat} (hv : b ≤ v) :
    write b digit v = write b digit (v / b) ++ [digit (v % b)] := by
  have hpos : 0 < v := by omega
  have hdiv : v / b ≠ 0 := by
    have := Nat.div_pos hv (by omega)
    omega
  unfold write
  rw [if_neg hpos.ne', if_neg hdiv, Nat.digits_def' hb hpos, List.map_cons, List.reverse_cons]

/-- There is a digit. -/
theorem write_ne_nil (hb : 1 < b) (v : Nat) : write b digit v ≠ [] := by
  by_cases hv : v < b
  · rw [write_of_lt hv]
    exact List.cons_ne_nil _ _
  · rw [write_of_le hb (by omega)]
    exact List.append_ne_nil_of_right_ne_nil _ (List.cons_ne_nil _ _)

/-- Every character is a digit of the base. -/
theorem mem_write (hb : 1 < b) {v : Nat} {x : α} (hx : x ∈ write b digit v) :
    ∃ d, d < b ∧ x = digit d := by
  unfold write at hx
  split at hx
  · exact ⟨0, by omega, List.mem_singleton.mp hx⟩
  · obtain ⟨d, hd, rfl⟩ := List.mem_map.mp (List.mem_reverse.mp hx)
    exact ⟨d, Nat.digits_lt_base hb hd, rfl⟩

theorem read_append_singleton (ds : List α) (d : α) :
    read b value (ds ++ [d]) = read b value ds * b + value d := by
  simp [read]

/-- **Reading back.** Where the digits have their values, a numeral has its number. -/
theorem read_write (hb : 1 < b) (hvalue : ∀ d, d < b → value (digit d) = d) (v : Nat) :
    read b value (write b digit v) = v := by
  induction v using Nat.strongRecOn with
  | ind v ih =>
    by_cases hv : v < b
    · rw [write_of_lt hv]
      simp [read, hvalue v hv]
    · have hle : b ≤ v := by omega
      have hless : v / b < v := Nat.div_lt_self (by omega) hb
      have hmod : v % b < b := Nat.mod_lt v (by omega)
      calc read b value (write b digit v)
          = read b value (write b digit (v / b)) * b + value (digit (v % b)) := by
            rw [write_of_le hb hle, read_append_singleton]
        _ = v / b * b + v % b := by rw [ih (v / b) hless, hvalue _ hmod]
        _ = v := Nat.div_add_mod' v b

/-- There is no leading zero. -/
theorem head?_write (hb : 1 < b) {v : Nat} (hv : 0 < v) :
    ∃ d, 0 < d ∧ d < b ∧ (write b digit v).head? = some (digit d) := by
  induction v using Nat.strongRecOn with
  | ind v ih =>
    by_cases hlt : v < b
    · exact ⟨v, hv, hlt, by rw [write_of_lt hlt]; rfl⟩
    · have hle : b ≤ v := by omega
      obtain ⟨d, hpos, hd, hhead⟩ := ih (v / b) (Nat.div_lt_self hv hb) (Nat.div_pos hle (by omega))
      refine ⟨d, hpos, hd, ?_⟩
      rw [write_of_le hb hle, List.head?_append, hhead]
      rfl

/-- Below a power of the base there are no more digits than the exponent. -/
theorem length_write_le (hb : 1 < b) : ∀ {k v : Nat}, 0 < k → v < b ^ k →
    (write b digit v).length ≤ k
  | k + 1, v, _, hv => by
    by_cases hlt : v < b
    · rw [write_of_lt hlt]
      simp
    · have hle : b ≤ v := by omega
      have hdiv : v / b < b ^ k := by
        apply Nat.div_lt_of_lt_mul
        rwa [Nat.pow_succ, Nat.mul_comm] at hv
      have hk : 0 < k := by
        apply Nat.pos_of_ne_zero
        intro hzero
        rw [hzero, Nat.zero_add, Nat.pow_one] at hv
        exact hlt hv
      have ih := length_write_le hb hk hdiv
      rw [write_of_le hb hle, List.length_append, List.length_singleton]
      omega

end Numeral
