import Mgx.Printf
import Mgx.Lib.Numeral

/-
  Numbers as the formatter renders them.

  `mgx_sprintf_num` produces the digits from the last to the first into `temp`,
  which has room for `MGX_INT64_LEN` = 20 of them, pads and copies. A numeral is
  said here without that loop, as the digits of the number in its base.

  What is proved: `number_rendering`. For every 64-bit value `temp` is large enough,
  the digits are the numeral of the value and read back as it, and what is stored is
  the padding and the numeral as far as the room goes.
-/
namespace Mgx
open Bounded CMem

/-- The base of the mode `hexadecimal`. -/
def numeralBase (hex : Nat) : Nat := if hex = 0 then 10 else 16

/-- The digits of a number, in the characters of the mode. -/
def numeral (hex v : Nat) : Bytes := Numeral.write (numeralBase hex) (digitChar hex) v

/-- The value of a digit, in capitals or not. -/
def digitValue (b : UInt8) : Nat :=
  if b < ch 'A' then (b - ch '0').toNat
  else if b < ch 'a' then (b - ch 'A').toNat + 10
  else (b - ch 'a').toNat + 10

/-- The number a string of digits denotes. -/
def readNumeral (hex : Nat) (ds : Bytes) : Nat := Numeral.read (numeralBase hex) digitValue ds

theorem one_lt_numeralBase (hex : Nat) : 1 < numeralBase hex := by
  unfold numeralBase
  split <;> decide

/-- What is not lower case hexadecimal uses the characters of the third mode. -/
theorem digitChar_of_ne_one {hex : Nat} (hhex : hex ≠ 1) (d : Nat) :
    digitChar hex d = digitChar 2 d := by
  simp only [digitChar, if_neg hhex]
  rfl

theorem digitValue_digitChar (hex d : Nat) (hd : d < numeralBase hex) :
    digitValue (digitChar hex d) = d := by
  have hlower : ∀ e ∈ List.range 16, digitValue (digitChar 1 e) = e := by decide
  have hupper : ∀ e ∈ List.range 16, digitValue (digitChar 2 e) = e := by decide
  have hmem : d ∈ List.range 16 := by
    unfold numeralBase at hd
    rw [List.mem_range]
    split at hd <;> omega
  by_cases hhex : hex = 1
  · rw [hhex]
    exact hlower d hmem
  · rw [digitChar_of_ne_one hhex]
    exact hupper d hmem

/-- The loop puts the numeral in front of what is there. -/
theorem digitLoop_eq {hex : Nat} : ∀ {k v : Nat} {acc p : Bytes},
    digitLoop (numeralBase hex) hex k v acc = some p → p = numeral hex v ++ acc
  | 0, v, acc, p, h => by cases h
  | k + 1, v, acc, p, h => by
    have hb := one_lt_numeralBase hex
    rw [digitLoop] at h
    split at h
    · next hzero =>
      have hlt : v < numeralBase hex := Nat.lt_of_div_eq_zero (by omega) hzero
      obtain rfl := Option.some.inj h
      rw [numeral, Numeral.write_of_lt hlt, Nat.mod_eq_of_lt hlt]
      rfl
    · next hzero =>
      have hle : numeralBase hex ≤ v := by
        by_contra hlt
        exact hzero (Nat.div_eq_of_lt (by omega))
      calc p = numeral hex (v / numeralBase hex) ++
              digitChar hex (v % numeralBase hex) :: acc := digitLoop_eq h
        _ = numeral hex v ++ acc := by
          rw [numeral, numeral, Numeral.write_of_le hb hle, List.append_assoc]
          rfl

/-- The loop on 32 bits does what the loop on 64 bits does. -/
theorem setWidth_toNat_of_le {ui64 : BitVec 64} (hle : ui64.toNat ≤ 0xffffffff) :
    (ui64.setWidth 32).toNat = ui64.toNat := by
  rw [BitVec.toNat_setWidth, Nat.mod_eq_of_lt (by omega)]

/-- In `temp` is the numeral, for every value. -/
theorem tempDigits_eq (ui64 : BitVec 64) (hex : Nat) :
    tempDigits ui64 hex = some (numeral hex ui64.toNat) := by
  obtain ⟨p, hp⟩ := tempDigits_isSome ui64 hex
  have hloop : digitLoop (numeralBase hex) hex mgxInt64Len ui64.toNat [] = some p := by
    unfold tempDigits at hp
    unfold numeralBase
    by_cases hdec : hex = 0
    · rw [if_pos hdec] at hp ⊢
      split at hp
      · next hle => rwa [setWidth_toNat_of_le hle] at hp
      · exact hp
    · rw [if_neg hdec] at hp ⊢
      exact hp
  rw [hp, digitLoop_eq hloop, List.append_nil]

/-- `temp` has a place for every digit. -/
theorem length_numeral_le (hex : Nat) (ui64 : BitVec 64) :
    (numeral hex ui64.toNat).length ≤ mgxInt64Len := by
  have hlt : ui64.toNat < numeralBase hex ^ mgxInt64Len := by
    have h64 := ui64.isLt
    have h10 : (2 : Nat) ^ 64 ≤ 10 ^ mgxInt64Len := by decide
    have h16 : (2 : Nat) ^ 64 ≤ 16 ^ mgxInt64Len := by decide
    unfold numeralBase
    split <;> omega
  exact Numeral.length_write_le (one_lt_numeralBase hex) (by decide) hlt

/-- A numeral has no leading zero, unless it is the one of zero. -/
theorem numeral_canonical (hex : Nat) {v : Nat} (hv : 0 < v) :
    (numeral hex v).head? ≠ some (ch '0') := by
  obtain ⟨d, hpos, hd, hhead⟩ := Numeral.head?_write (one_lt_numeralBase hex) hv
  intro hzero
  have hchar : digitChar hex d = ch '0' := by
    apply Option.some.inj
    exact hhead.symm.trans hzero
  have hvalue := digitValue_digitChar hex d hd
  rw [hchar] at hvalue
  have hnone : digitValue (ch '0') = 0 := by decide
  omega

/-- **Number rendering.** For every 64-bit value, mode, fill character and width, and whatever the
room: the digits are the numeral of the value, without a leading zero, which reads back as the value;
`temp` has room for it; for a value of 32 bits the loop on 64 bits stores the same digits; and what is
stored is the beginning of the padding and the numeral. -/
theorem number_rendering (ui64 : BitVec 64) (zero : UInt8) (hex width room : Nat) :
    tempDigits ui64 hex = some (numeral hex ui64.toNat) ∧
    (numeral hex ui64.toNat).length ≤ mgxInt64Len ∧
    readNumeral hex (numeral hex ui64.toNat) = ui64.toNat ∧
    (0 < ui64.toNat → (numeral hex ui64.toNat).head? ≠ some (ch '0')) ∧
    (ui64.toNat ≤ 0xffffffff → digitLoop 10 0 mgxInt64Len (ui64.setWidth 32).toNat [] =
      digitLoop 10 0 mgxInt64Len ui64.toNat []) ∧
    sprintfNum ui64 zero hex width room =
      some ((List.replicate (width - (numeral hex ui64.toNat).length) zero ++
        numeral hex ui64.toNat).take room) := by
  refine ⟨tempDigits_eq ui64 hex, length_numeral_le hex ui64, ?_, numeral_canonical hex,
    fun hle => ?_, ?_⟩
  · exact Numeral.read_write (one_lt_numeralBase hex) (digitValue_digitChar hex) ui64.toNat
  · rw [setWidth_toNat_of_le hle]
  · rw [fills_sprintfNum ui64 zero hex width room (Nat.zero_le room), Piece.text, tempDigits_eq]
    rfl

/-- All of `temp` is used by the largest value. -/
example : (numeral 0 (2 ^ 64 - 1)).length = mgxInt64Len := by decide

end Mgx
