import Mathlib.Algebra.Group.Nat.Defs
import Mathlib.Data.List.GetD
import Mathlib.Tactic.ByContra

/-
  Cyclic redundancy codes, reflected: the register is shifted right and the bits
  of the input enter at bit 0, least significant first.

  `feed` is the register after a string of bits. Two facts carry everything: a
  shift is linear in exclusive or, and it loses nothing when the polynomial has
  its highest bit (`shift_injective`). So `w` bits at once are `w` shifts of the
  register with the bits written into it (`feed_eq`), which is what a table does,
  and two strings that differ within `w` consecutive bits only leave different
  registers (`feed_ne_of_burst`).

  Nothing here names a program.
-/
namespace Crc

variable {w : Nat}

/-- One turn: the low bit goes out and decides whether the polynomial is added. -/
def shift (poly c : BitVec w) : BitVec w :=
  if c.getLsbD 0 then poly ^^^ (c >>> 1) else c >>> 1

/-- `n` turns. -/
def shifts (poly : BitVec w) : Nat → BitVec w → BitVec w
  | 0, c => c
  | n + 1, c => shifts poly n (shift poly c)

/-- A bit as the low bit of a register. -/
def bit (b : Bool) : BitVec w := BitVec.setWidth w (BitVec.ofBool b)

/-- The register after the bits, from `c` on. -/
def feed (poly : BitVec w) : BitVec w → List Bool → BitVec w
  | c, [] => c
  | c, b :: bs => feed poly (shift poly (c ^^^ bit b)) bs

/-- The bits written into a register, the first at bit 0. -/
def pack : List Bool → BitVec w
  | [] => 0#w
  | b :: bs => bit b ^^^ (pack bs <<< 1)

/-! ## Shifts are linear -/

theorem xor_cancel_left (p a b : BitVec w) : p ^^^ a ^^^ (p ^^^ b) = a ^^^ b := by
  calc p ^^^ a ^^^ (p ^^^ b) = p ^^^ p ^^^ (a ^^^ b) := by ac_rfl
    _ = a ^^^ b := by rw [BitVec.xor_self, BitVec.zero_xor]

theorem shift_xor (poly a b : BitVec w) :
    shift poly (a ^^^ b) = shift poly a ^^^ shift poly b := by
  unfold shift
  rw [BitVec.getLsbD_xor, BitVec.ushiftRight_xor_distrib]
  cases a.getLsbD 0 <;> cases b.getLsbD 0
  · rfl
  · show poly ^^^ (a >>> 1 ^^^ b >>> 1) = a >>> 1 ^^^ (poly ^^^ b >>> 1)
    ac_rfl
  · show poly ^^^ (a >>> 1 ^^^ b >>> 1) = poly ^^^ a >>> 1 ^^^ b >>> 1
    ac_rfl
  · exact (xor_cancel_left poly _ _).symm

theorem shifts_xor (poly : BitVec w) (n : Nat) (a b : BitVec w) :
    shifts poly n (a ^^^ b) = shifts poly n a ^^^ shifts poly n b := by
  induction n generalizing a b with
  | zero => rfl
  | succ n ih => rw [shifts, shift_xor, ih]; rfl

/-! ## Shifts lose nothing -/

/-- After a turn the highest bit of the register is the bit that went out. -/
theorem msb_shift {poly : BitVec w} (hpoly : poly.msb = true) (c : BitVec w) :
    (shift poly c).msb = c.getLsbD 0 := by
  have hw : 0 < w := by
    cases w with
    | zero => rw [BitVec.of_length_zero (x := poly)] at hpoly; simp at hpoly
    | succ w => exact Nat.succ_pos w
  have hlow : (c >>> 1).msb = false := by
    rw [BitVec.msb_ushiftRight]
    rfl
  unfold shift
  cases c.getLsbD 0 with
  | true => rw [if_pos rfl, BitVec.msb_xor, hpoly, hlow]; rfl
  | false => rw [if_neg Bool.false_ne_true, hlow]

theorem shift_injective {poly : BitVec w} (hpoly : poly.msb = true) {a b : BitVec w}
    (h : shift poly a = shift poly b) : a = b := by
  have hlow : a.getLsbD 0 = b.getLsbD 0 := by
    rw [← msb_shift hpoly a, ← msb_shift hpoly b, h]
  have hrest : a >>> 1 = b >>> 1 := by
    unfold shift at h
    rw [hlow] at h
    split at h
    · have hx := congrArg (poly ^^^ ·) h
      simpa only [← BitVec.xor_assoc, BitVec.xor_self, BitVec.zero_xor] using hx
    · exact h
  apply BitVec.eq_of_getLsbD_eq
  intro i _
  cases i with
  | zero => exact hlow
  | succ i =>
    have hi := congrArg (·.getLsbD i) hrest
    simpa only [BitVec.getLsbD_ushiftRight, Nat.add_comm] using hi

theorem shifts_injective {poly : BitVec w} (hpoly : poly.msb = true) :
    ∀ (n : Nat) {a b : BitVec w}, shifts poly n a = shifts poly n b → a = b
  | 0, _, _, h => h
  | n + 1, _, _, h => shift_injective hpoly (shifts_injective hpoly n h)

/-! ## Many bits at once -/

theorem getLsbD_bit (b : Bool) (i : Nat) : (bit b : BitVec w).getLsbD i =
    (decide (i < w) && (decide (i = 0) && b)) := by
  unfold bit
  rw [BitVec.getLsbD_setWidth, BitVec.getLsbD_ofBool]

/-- The bits can be read back. -/
theorem getLsbD_pack (bs : List Bool) (i : Nat) :
    (pack bs : BitVec w).getLsbD i = (decide (i < w) && bs.getD i false) := by
  induction bs generalizing i with
  | nil => simp [pack]
  | cons b bs ih =>
    rw [pack, BitVec.getLsbD_xor, getLsbD_bit, BitVec.getLsbD_shiftLeft, ih]
    cases i with
    | zero => simp
    | succ i =>
      by_cases hi : i + 1 < w
      · have hi' : i < w := by omega
        simp [hi, hi']
      · simp [hi]

/-- A register whose highest bit is clear survives a shift up and a turn. -/
theorem shift_shiftLeft (poly : BitVec w) {c : BitVec w} (hc : c.msb = false) :
    shift poly (c <<< 1) = c := by
  have hlow : (c <<< 1).getLsbD 0 = false := by simp
  unfold shift
  rw [hlow, if_neg Bool.false_ne_true]
  apply BitVec.eq_of_getLsbD_eq
  intro i hi
  rw [BitVec.getLsbD_ushiftRight, BitVec.getLsbD_shiftLeft]
  by_cases hlast : 1 + i < w
  · simp [hlast]
  · have htop : i = w - 1 := by omega
    rw [BitVec.msb_eq_getLsbD_last] at hc
    rw [htop, hc]
    simp
    omega

theorem msb_pack {bs : List Bool} (h : bs.length < w) : (pack bs : BitVec w).msb = false := by
  rw [BitVec.msb_eq_getLsbD_last, getLsbD_pack, List.getD_eq_default]
  · simp
  · omega

/-- As many bits as the register is wide, at most, are turns of the register with the bits added to
it. -/
theorem feed_eq (poly : BitVec w) : ∀ (bs : List Bool) (c : BitVec w), bs.length ≤ w →
    feed poly c bs = shifts poly bs.length (c ^^^ pack bs)
  | [], c, _ => by rw [pack, BitVec.xor_zero]; rfl
  | b :: bs, c, h => by
    rw [List.length_cons] at h
    have hup := shift_shiftLeft poly (msb_pack (show bs.length < w by omega))
    rw [feed, feed_eq poly bs _ (by omega), List.length_cons, shifts, pack, ← BitVec.xor_assoc,
      shift_xor poly (c ^^^ bit b), hup]

theorem feed_append (poly c : BitVec w) (xs ys : List Bool) :
    feed poly c (xs ++ ys) = feed poly (feed poly c xs) ys := by
  induction xs generalizing c with
  | nil => rfl
  | cons x xs ih => exact ih _

/-- `n` turns of a register: those of its `n` low bits, and the others moved down. This is what a
table of the turns of the low bits is for. -/
theorem shifts_low (poly c : BitVec w) (n : Nat) :
    shifts poly n c = shifts poly n (c &&& BitVec.ofNat w (2 ^ n - 1)) ^^^ (c >>> n) := by
  have hup : ∀ (k : Nat) (d : BitVec w), (∀ i, w ≤ i + k → d.getLsbD i = false) →
      shifts poly k (d <<< k) = d := by
    intro k
    induction k with
    | zero => intro d _; rw [BitVec.shiftLeft_zero]; rfl
    | succ k ih =>
      intro d hd
      have htop : (d <<< k).msb = false := by
        rw [BitVec.msb_eq_getLsbD_last, BitVec.getLsbD_shiftLeft]
        by_cases hk : k ≤ w - 1
        · rw [hd (w - 1 - k) (by omega), Bool.and_false]
        · simp only [show w - 1 < k by omega, decide_true, Bool.not_true, Bool.and_false,
            Bool.false_and]
      rw [shifts, BitVec.shiftLeft_add, shift_shiftLeft poly htop]
      exact ih d fun i hi => hd i (by omega)
  have hsplit : c = (c &&& BitVec.ofNat w (2 ^ n - 1)) ^^^ ((c >>> n) <<< n) := by
    apply BitVec.eq_of_getLsbD_eq
    intro i hi
    rw [BitVec.getLsbD_xor, BitVec.getLsbD_and, BitVec.getLsbD_ofNat, BitVec.getLsbD_shiftLeft,
      BitVec.getLsbD_ushiftRight, Nat.testBit_two_pow_sub_one]
    by_cases hn : i < n
    · simp only [hi, hn, decide_true, Bool.and_true, Bool.not_true, Bool.and_false,
        Bool.false_and, Bool.bne_false]
    · simp only [hi, hn, decide_true, decide_false, Bool.and_false, Bool.not_false,
        Bool.and_self, show n + (i - n) = i by omega, Bool.true_and, Bool.false_bne]
  have hhigh : shifts poly n ((c >>> n) <<< n) = c >>> n := by
    apply hup
    intro i hi
    rw [BitVec.getLsbD_ushiftRight]
    exact BitVec.getLsbD_of_ge _ _ (by omega)
  calc shifts poly n c
      = shifts poly n ((c &&& BitVec.ofNat w (2 ^ n - 1)) ^^^ ((c >>> n) <<< n)) := by
        rw [← hsplit]
    _ = _ := by rw [shifts_xor, hhigh]

/-! ## Bursts -/

theorem xor_right_injective {a b : BitVec w} (c : BitVec w) (h : a ^^^ c = b ^^^ c) : a = b := by
  have hx := congrArg (· ^^^ c) h
  simpa only [BitVec.xor_assoc, BitVec.xor_self, BitVec.xor_zero] using hx

/-- The same bits keep different registers apart. -/
theorem feed_injective {poly : BitVec w} (hpoly : poly.msb = true) :
    ∀ (bs : List Bool) {c d : BitVec w}, feed poly c bs = feed poly d bs → c = d
  | [], _, _, h => h
  | b :: bs, _, _, h =>
    xor_right_injective (bit b) (shift_injective hpoly (feed_injective hpoly bs h))

theorem pack_injective {xs ys : List Bool} (hlen : xs.length = ys.length) (hw : xs.length ≤ w)
    (h : (pack xs : BitVec w) = pack ys) : xs = ys := by
  apply List.ext_getElem hlen
  intro i hi hi'
  have hbit := congrArg (·.getLsbD i) h
  simp only [getLsbD_pack, show i < w by omega, decide_true, Bool.true_and] at hbit
  rwa [List.getD_eq_getElem _ _ hi, List.getD_eq_getElem _ _ hi'] at hbit

/-- Different bits, as many as the register is wide at most, leave different registers. -/
theorem feed_injective_bits {poly : BitVec w} (hpoly : poly.msb = true) (c : BitVec w)
    {xs ys : List Bool} (hlen : xs.length = ys.length) (hw : xs.length ≤ w)
    (h : feed poly c xs = feed poly c ys) : xs = ys := by
  rw [feed_eq poly xs c hw, feed_eq poly ys c (hlen ▸ hw), ← hlen] at h
  have hx := shifts_injective hpoly _ h
  rw [BitVec.xor_comm c, BitVec.xor_comm c] at hx
  exact pack_injective hlen hw (xor_right_injective c hx)

/-- **Bursts are detected.** Strings of one length that differ, and only within `w` consecutive
bits, leave different registers. -/
theorem feed_ne_of_burst {poly : BitVec w} (hpoly : poly.msb = true) (c : BitVec w)
    {xs ys : List Bool} (hlen : xs.length = ys.length) (hne : xs ≠ ys) {j : Nat}
    (hwin : ∀ i, xs[i]? ≠ ys[i]? → j ≤ i ∧ i < j + w) : feed poly c xs ≠ feed poly c ys := by
  -- the same bits before and after the window
  have hbefore : xs.take j = ys.take j := by
    apply List.ext_getElem?
    intro i
    rw [List.getElem?_take, List.getElem?_take]
    split
    · next hi =>
      by_contra hd
      exact absurd (hwin i hd).1 (by omega)
    · rfl
  have hafter : (xs.drop j).drop w = (ys.drop j).drop w := by
    apply List.ext_getElem?
    intro i
    simp only [List.getElem?_drop]
    by_contra hd
    exact absurd (hwin _ hd).2 (by omega)
  have hcut : ∀ zs : List Bool,
      feed poly c zs = feed poly (feed poly (feed poly c (zs.take j)) ((zs.drop j).take w))
        ((zs.drop j).drop w) := by
    intro zs
    rw [← feed_append, ← feed_append, List.take_append_drop, List.take_append_drop]
  intro h
  rw [hcut xs, hcut ys, hbefore, hafter] at h
  have hwindow : (xs.drop j).take w = (ys.drop j).take w := by
    apply feed_injective_bits hpoly _ _ _ (feed_injective hpoly _ h)
    · simp only [List.length_take, List.length_drop, hlen]
    · exact List.length_take_le ..
  apply hne
  calc xs = xs.take j ++ ((xs.drop j).take w ++ (xs.drop j).drop w) := by
        rw [List.take_append_drop, List.take_append_drop]
    _ = ys.take j ++ ((ys.drop j).take w ++ (ys.drop j).drop w) := by
        rw [hbefore, hwindow, hafter]
    _ = ys := by rw [List.take_append_drop, List.take_append_drop]

end Crc
