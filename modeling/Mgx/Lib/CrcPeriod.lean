import Mathlib
import Mgx.Lib.Crc

/-
  The period of a cyclic redundancy code.

  The registers are the polynomials below the degree of the code, the highest bit
  being the constant one, and a turn multiplies by the indeterminate. After `n`
  turns of the constant one the register holds a power of the indeterminate, and
  `n` turns of any other register multiply it by that power (`mul_power`), so that
  powers can be computed by squaring (`power_eq`).

  Two bits that are flipped leave the register as it would be exactly when the
  turns between them bring the constant one back (`feed_eq_iff_of_two`). How often
  that is the prime factors of one such number decide (`minimalPeriod_eq`).

  Nothing here names a program.
-/
namespace Crc
open Function

variable {w : Nat} {poly : BitVec w}

/-! ## Turns -/

theorem shifts_eq_iterate (poly : BitVec w) (n : Nat) : shifts poly n = (shift poly)^[n] := by
  induction n with
  | zero => rfl
  | succ n ih =>
    funext c
    rw [shifts, ih, iterate_succ_apply]

theorem shifts_add (m n : Nat) (c : BitVec w) :
    shifts poly (m + n) c = shifts poly m (shifts poly n c) := by
  rw [shifts_eq_iterate, shifts_eq_iterate, shifts_eq_iterate, iterate_add_apply]

theorem shifts_succ (n : Nat) (c : BitVec w) :
    shifts poly (n + 1) c = shift poly (shifts poly n c) := by
  rw [Nat.add_comm, shifts_add]
  rfl

theorem shifts_zero (n : Nat) : shifts poly n 0#w = 0#w := by
  have h := shifts_xor poly n 0#w 0#w
  rwa [BitVec.xor_self, BitVec.xor_self] at h

/-! ## Powers -/

/-- The constant one: the highest bit. -/
def one : BitVec w := BitVec.twoPow w (w - 1)

/-- The product of the polynomials `a` and `c`, taking the bits of `a` from the highest on. -/
def mulFrom (poly : BitVec w) : Nat → BitVec w → BitVec w → BitVec w
  | 0, _, _ => 0#w
  | k + 1, a, c => (if a.msb then c else 0#w) ^^^ mulFrom poly k (a <<< 1) (shift poly c)

def mul (poly a c : BitVec w) : BitVec w := mulFrom poly w a c

/-- A register is its highest bit and a turn of the others. -/
theorem eq_xor_shift (a : BitVec w) :
    a = (if a.msb then one else 0#w) ^^^ shift poly (a <<< 1) := by
  have hlow : (a <<< 1).getLsbD 0 = false := by simp
  rw [shift, hlow, if_neg Bool.false_ne_true]
  apply BitVec.eq_of_getLsbD_eq
  intro i hi
  have hmsb : a.msb = a.getLsbD (w - 1) := BitVec.msb_eq_getLsbD_last a
  rw [BitVec.getLsbD_xor, BitVec.getLsbD_ushiftRight, BitVec.getLsbD_shiftLeft]
  by_cases htop : i = w - 1
  · subst htop
    have hout : ¬ 1 + (w - 1) < w := by omega
    cases hbit : a.getLsbD (w - 1) with
    | true => simp [hmsb, hbit, one, hout, hi]
    | false => simp [hmsb, hbit, hout]
  · have hin : 1 + i < w := by omega
    have hne : w - 1 ≠ i := fun h => htop h.symm
    have hone : (one : BitVec w).getLsbD i = false := by
      simp [one, BitVec.getLsbD_twoPow, hne]
    cases a.msb with
    | true => simp [hone, hin]
    | false => simp [hin]

theorem mulFrom_power : ∀ (k : Nat) (a : BitVec w) (n : Nat), a <<< k = 0#w →
    mulFrom poly k a (shifts poly n one) = shifts poly n a
  | 0, a, n, ha => by
    rw [BitVec.shiftLeft_zero] at ha
    rw [mulFrom, ha, shifts_zero]
  | k + 1, a, n, ha => by
    have hnext : (a <<< 1) <<< k = 0#w := by rw [← BitVec.shiftLeft_add, Nat.add_comm]; exact ha
    calc mulFrom poly (k + 1) a (shifts poly n one)
        = (if a.msb then shifts poly n one else 0#w) ^^^
            mulFrom poly k (a <<< 1) (shifts poly (n + 1) one) := by rw [mulFrom, shifts_succ]
      _ = shifts poly n (if a.msb then one else 0#w) ^^^ shifts poly n (shift poly (a <<< 1)) := by
          rw [mulFrom_power k _ _ hnext, shifts]
          cases a.msb with
          | true => rfl
          | false => simp [shifts_zero]
      _ = shifts poly n a := by rw [← shifts_xor, ← eq_xor_shift]

/-- `n` turns multiply by the `n`-th power. -/
theorem mul_power (a : BitVec w) (n : Nat) :
    mul poly a (shifts poly n one) = shifts poly n a := by
  apply mulFrom_power
  simp

/-- The `n`-th power by squaring, for `n` below `2 ^ k`. -/
def power (poly : BitVec w) : Nat → Nat → BitVec w
  | 0, _ => one
  | k + 1, n =>
    let c := power poly k (n / 2)
    if n % 2 = 1 then shift poly (mul poly c c) else mul poly c c

theorem power_eq : ∀ (k n : Nat), n < 2 ^ k → power poly k n = shifts poly n one
  | 0, n, h => by
    obtain rfl : n = 0 := by simpa using h
    rfl
  | k + 1, n, h => by
    have hhalf : n / 2 < 2 ^ k := by
      rw [Nat.pow_succ] at h
      omega
    have hsquare : mul poly (power poly k (n / 2)) (power poly k (n / 2))
        = shifts poly (n / 2 + n / 2) one := by
      rw [power_eq k (n / 2) hhalf, mul_power, shifts_add]
    rw [power, hsquare]
    split
    next hodd =>
      rw [← shifts_succ]
      congr 1
      omega
    next heven =>
      congr 1
      omega

/-! ## The period -/

/-- A number is the period when it is a multiple of it and its quotients by primes are not. -/
theorem minimalPeriod_eq {α : Type} {f : α → α} {x : α} {n : Nat}
    (hper : IsPeriodicPt f n x) (hprime : ∀ p, p.Prime → p ∣ n → ¬ IsPeriodicPt f (n / p) x) :
    minimalPeriod f x = n := by
  obtain ⟨k, hk⟩ := hper.minimalPeriod_dvd
  by_contra hne
  have hk1 : k ≠ 1 := by
    rintro rfl
    exact hne (by rw [hk, Nat.mul_one])
  obtain ⟨p, hp, l, hl⟩ := Nat.exists_prime_and_dvd hk1
  have hdvd : p ∣ n := ⟨minimalPeriod f x * l, by rw [hk, hl]; ring⟩
  apply hprime p hp hdvd
  have hquot : n / p = minimalPeriod f x * l := by
    apply Nat.div_eq_of_eq_mul_right hp.pos
    rw [hk, hl]
    ring
  rw [isPeriodicPt_iff_minimalPeriod_dvd, hquot]
  exact Dvd.intro l rfl

theorem isPeriodicPt_one_iff (n : Nat) :
    IsPeriodicPt (shift poly) n one ↔ shifts poly n one = one := by
  rw [shifts_eq_iterate]
  rfl

/-- The constant one comes down to the lowest bit. -/
theorem shifts_one {k : Nat} (hk : k < w) : shifts poly k one = BitVec.twoPow w (w - 1 - k) := by
  induction k with
  | zero => rfl
  | succ k ih =>
    have hlow : (BitVec.twoPow w (w - 1 - k)).getLsbD 0 = false := by
      have hne : w - 1 - k ≠ 0 := by omega
      simp [BitVec.getLsbD_twoPow, hne]
    rw [shifts_succ, ih (by omega), shift, hlow, if_neg Bool.false_ne_true]
    apply BitVec.eq_of_getLsbD_eq
    intro i hi
    rw [BitVec.getLsbD_ushiftRight, BitVec.getLsbD_twoPow, BitVec.getLsbD_twoPow]
    have hsame : (w - 1 - k = 1 + i) ↔ (w - 1 - (k + 1) = i) := by omega
    have hk' : w - 1 - k < w := by omega
    have hk'' : w - 1 - (k + 1) < w := by omega
    simp [hsame, hk', hk'']

theorem shifts_bit_eq_iff (hpoly : poly.msb = true) (n : Nat) :
    shifts poly n (bit true) = bit true ↔ IsPeriodicPt (shift poly) n one := by
  have hw : 0 < w := by
    cases w with
    | zero => rw [BitVec.of_length_zero (x := poly)] at hpoly; simp at hpoly
    | succ w => exact Nat.succ_pos w
  have hbit : (bit true : BitVec w) = shifts poly (w - 1) one := by
    rw [shifts_one (by omega), Nat.sub_self]
    apply BitVec.eq_of_getLsbD_eq
    intro i hi
    rw [getLsbD_bit, BitVec.getLsbD_twoPow]
    simp [hi, hw, eq_comm]
  rw [isPeriodicPt_one_iff, hbit, ← shifts_add, Nat.add_comm, shifts_add]
  exact ⟨fun h => shifts_injective hpoly (w - 1) h, fun h => by rw [h]⟩

/-! ## Two bits -/

theorem feed_xor (c d : BitVec w) (bs : List Bool) :
    feed poly (c ^^^ d) bs = feed poly c bs ^^^ shifts poly bs.length d := by
  induction bs generalizing c d with
  | nil => rfl
  | cons b bs ih =>
    have hmove : shift poly (c ^^^ d ^^^ bit b) = shift poly (c ^^^ bit b) ^^^ shift poly d := by
      rw [← shift_xor]
      congr 1
      ac_rfl
    rw [feed, hmove, ih]
    rfl

theorem bit_not (b : Bool) : (bit (!b) : BitVec w) = bit b ^^^ bit true := by
  apply BitVec.eq_of_getLsbD_eq
  intro i hi
  rw [BitVec.getLsbD_xor, getLsbD_bit, getLsbD_bit, getLsbD_bit]
  cases b <;> simp

theorem xor_eq_self_iff {a d : BitVec w} : a ^^^ d = a ↔ d = 0#w := by
  constructor
  · intro h
    have hx := congrArg (a ^^^ ·) h
    simpa only [← BitVec.xor_assoc, BitVec.xor_self, BitVec.zero_xor] using hx
  · intro h
    rw [h, BitVec.xor_zero]

theorem xor_eq_zero_iff {a b : BitVec w} : a ^^^ b = 0#w ↔ a = b := by
  constructor
  · intro h
    have hx := congrArg (· ^^^ b) h
    simpa only [BitVec.xor_assoc, BitVec.xor_self, BitVec.xor_zero, BitVec.zero_xor] using hx
  · intro h
    rw [h, BitVec.xor_self]

/-- **Two flipped bits** leave the register as it would be exactly when the number of turns from the
one to the other is a multiple of the period. -/
theorem feed_eq_iff_of_two (hpoly : poly.msb = true) (c : BitVec w) (before between after : List Bool)
    (x y : Bool) :
    feed poly c (before ++ (!x) :: (between ++ (!y) :: after)) =
        feed poly c (before ++ x :: (between ++ y :: after)) ↔
      minimalPeriod (shift poly) one ∣ between.length + 1 := by
  -- what the first flip is when the second comes
  have hfirst : feed poly c (before ++ (!x) :: (between ++ (!y) :: after)) =
      feed poly (shift poly (feed poly c before ^^^ bit x)) (between ++ (!y) :: after) ^^^
        shifts poly ((between ++ (!y) :: after).length) (shift poly (bit true)) := by
    rw [feed_append, feed, bit_not, ← BitVec.xor_assoc, shift_xor, feed_xor]
  have hsecond : ∀ d : BitVec w, feed poly d (between ++ (!y) :: after) =
      feed poly d (between ++ y :: after) ^^^ shifts poly after.length (shift poly (bit true)) := by
    intro d
    rw [feed_append, feed_append, feed, feed, bit_not, ← BitVec.xor_assoc, shift_xor, feed_xor]
  have hlen : (between ++ (!y) :: after).length = after.length + (between.length + 1) := by
    simp only [List.length_append, List.length_cons]
    omega
  rw [hfirst, hsecond, hlen, shifts_add, BitVec.xor_assoc, ← shifts_xor]
  rw [feed_append poly c before (x :: (between ++ y :: after)), feed, xor_eq_self_iff]
  have hzero : ∀ d : BitVec w, shifts poly after.length d = 0#w ↔ d = 0#w := by
    intro d
    refine ⟨fun h => shifts_injective hpoly after.length (h.trans (shifts_zero _).symm), fun h => ?_⟩
    rw [h, shifts_zero]
  rw [hzero, xor_eq_zero_iff, ← isPeriodicPt_iff_minimalPeriod_dvd, ← shifts_bit_eq_iff hpoly]
  have hcomm : shifts poly (between.length + 1) (shift poly (bit true))
      = shift poly (shifts poly (between.length + 1) (bit true)) := by
    rw [← shifts_succ]
    rfl
  rw [hcomm]
  exact ⟨fun h => (shift_injective hpoly h).symm, fun h => by rw [h]⟩

theorem split_at {l : List Bool} {i : Nat} (hi : i < l.length) :
    l = l.take i ++ l[i] :: l.drop (i + 1) := by
  rw [← List.drop_eq_getElem_cons hi, List.take_append_drop]

/-- Two strings that differ in exactly two places. -/
theorem split_at_two {xs ys : List Bool} (hlen : ys.length = xs.length) {i j : Nat} (hij : i < j)
    (hdiff : ∀ n, ys[n]? ≠ xs[n]? ↔ n = i ∨ n = j) :
    ∃ before x between y after, xs = before ++ x :: (between ++ y :: after) ∧
      ys = before ++ (!x) :: (between ++ (!y) :: after) ∧ between.length + 1 = j - i := by
  have hj : j < xs.length := by
    by_contra hout
    have hxj : xs[j]? = none := List.getElem?_eq_none (by omega)
    have hyj : ys[j]? = none := List.getElem?_eq_none (by omega)
    exact (hdiff j).mpr (Or.inr rfl) (hyj.trans hxj.symm)
  have hi : i < xs.length := by omega
  have hflip : ∀ {n : Nat} (hn : n < xs.length) (hn' : n < ys.length), n = i ∨ n = j →
      ys[n] = !xs[n] := by
    intro n hn hn' hor
    have hne := (hdiff n).mpr hor
    rw [List.getElem?_eq_getElem hn, List.getElem?_eq_getElem hn', ne_eq, Option.some.injEq] at hne
    exact Bool.eq_not_of_ne hne
  have hsame : ∀ n, n ≠ i → n ≠ j → ys[n]? = xs[n]? := by
    intro n hni hnj
    by_contra hne
    rcases (hdiff n).mp hne with h | h
    · exact hni h
    · exact hnj h
  have hbefore : ys.take i = xs.take i := by
    apply List.ext_getElem?
    intro n
    rw [List.getElem?_take, List.getElem?_take]
    split
    next hn => exact hsame n (by omega) (by omega)
    next => rfl
  have hbetween : (ys.drop (i + 1)).take (j - i - 1) = (xs.drop (i + 1)).take (j - i - 1) := by
    apply List.ext_getElem?
    intro n
    rw [List.getElem?_take, List.getElem?_take]
    split
    next hn =>
      rw [List.getElem?_drop, List.getElem?_drop]
      exact hsame _ (by omega) (by omega)
    next => rfl
  have hafter : ys.drop (j + 1) = xs.drop (j + 1) := by
    apply List.ext_getElem?
    intro n
    rw [List.getElem?_drop, List.getElem?_drop]
    exact hsame _ (by omega) (by omega)
  -- the rest behind the first place, split at the second
  have hrest : ∀ {l : List Bool} (hl : j < l.length), l.drop (i + 1) =
      (l.drop (i + 1)).take (j - i - 1) ++ l[j] :: l.drop (j + 1) := by
    intro l hl
    have hcut := List.take_append_drop (j - i - 1) (l.drop (i + 1))
    have hidx : i + 1 + (j - i - 1) = j := by omega
    rw [List.drop_drop, hidx, List.drop_eq_getElem_cons hl] at hcut
    exact hcut.symm
  refine ⟨xs.take i, xs[i], (xs.drop (i + 1)).take (j - i - 1), xs[j], xs.drop (j + 1), ?_, ?_, ?_⟩
  · rw [← hrest hj]
    exact split_at hi
  · rw [← hbefore, ← hbetween, ← hafter, ← hflip hi (by omega) (Or.inl rfl),
      ← hflip hj (by omega) (Or.inr rfl), ← hrest (by omega)]
    exact split_at (by omega)
  · rw [List.length_take, List.length_drop]
    omega

end Crc
