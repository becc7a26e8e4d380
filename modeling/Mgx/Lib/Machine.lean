import Mathlib

/-
  A byte-addressed memory and straight-line machine code.

  Addresses and registers are 64 bits wide, memory is little-endian and address
  arithmetic wraps round. The code is a list of 8-byte moves between a register
  and memory, ending in a return; the registers are a parameter, and which of
  them is the stack pointer.

  The results are the frame rules of the memory:

    `read_write_self`    what was written is read back;
    `write_off`          a write changes nothing outside its eight bytes;
    `write_read_self`    writing back what is there changes nothing;
    `read_congr`         a read depends on its eight bytes only;
    `readWords_writeWords`, `writeWords_off`
                         the same for a block of consecutive words.

  Nothing here names a program.
-/
namespace Machine

abbrev Word := BitVec 64

abbrev Memory := Word → BitVec 8

/-- `x` is one of the `n` bytes from `a` on. -/
def Within (a : Word) (n : Nat) (x : Word) : Prop := (x - a).toNat < n

instance (a : Word) (n : Nat) (x : Word) : Decidable (Within a n x) :=
  inferInstanceAs (Decidable ((x - a).toNat < n))

/-- No byte belongs to both. -/
def Apart (a : Word) (n : Nat) (b : Word) (k : Nat) : Prop := ∀ x, Within a n x → ¬ Within b k x

/-- `movq (a), %r`: the eight bytes from `a` on, the lowest first. -/
def read (m : Memory) (a : Word) : Word :=
  BitVec.ofFnLE fun i : Fin 64 => (m (a + BitVec.ofNat 64 (i / 8))).getLsbD (i % 8)

/-- `movq %r, (a)`. -/
def write (m : Memory) (a w : Word) : Memory :=
  fun x => if (x - a).toNat < 8 then (w >>> (8 * (x - a).toNat)).setWidth 8 else m x

section memory

variable {m m' : Memory} {a b w : Word} {n k : Nat}

theorem Apart.symm (h : Apart a n b k) : Apart b k a n := fun x hb ha => h x ha hb

theorem Apart.mono {a' b' : Word} {n' k' : Nat} (h : Apart a n b k)
    (ha : ∀ x, Within a' n' x → Within a n x) (hb : ∀ x, Within b' k' x → Within b k x) :
    Apart a' n' b' k' := fun x hx hx' => h x (ha x hx) (hb x hx')

/-- The bytes of a part of a block are bytes of the block. -/
theorem within_part {off len : Nat} (h : off + len ≤ n) (hn : n ≤ 2 ^ 64) {x : Word}
    (hx : Within (a + BitVec.ofNat 64 off) len x) : Within a n x := by
  unfold Within at hx ⊢
  bv_omega

/-- Two parts of a block that do not overlap are apart. -/
theorem apart_parts {o₁ l₁ o₂ l₂ : Nat} (h : o₁ + l₁ ≤ o₂) (hn : o₂ + l₂ ≤ 2 ^ 64) :
    Apart (a + BitVec.ofNat 64 o₁) l₁ (a + BitVec.ofNat 64 o₂) l₂ := by
  intro x h₁ h₂
  unfold Within at h₁ h₂
  bv_omega

theorem getLsbD_read {i : Nat} (hi : i < 64) :
    (read m a).getLsbD i = (m (a + BitVec.ofNat 64 (i / 8))).getLsbD (i % 8) := by
  rw [read, BitVec.getLsbD_ofFnLE, dif_pos hi]

theorem write_off {x : Word} (h : ¬ Within a 8 x) : write m a w x = m x := if_neg h

theorem write_at {i : Nat} (hi : i < 8) :
    write m a w (a + BitVec.ofNat 64 i) = (w >>> (8 * i)).setWidth 8 := by
  have hoff : (a + BitVec.ofNat 64 i - a).toNat = i := by bv_omega
  rw [write, hoff, if_pos hi]

theorem read_congr (h : ∀ x, Within a 8 x → m x = m' x) : read m a = read m' a := by
  apply BitVec.eq_of_getLsbD_eq
  intro i hi
  have hin : Within a 8 (a + BitVec.ofNat 64 (i / 8)) := by unfold Within; bv_omega
  rw [getLsbD_read hi, getLsbD_read hi, h _ hin]

theorem read_write_self : read (write m a w) a = w := by
  apply BitVec.eq_of_getLsbD_eq
  intro i hi
  rw [getLsbD_read hi, write_at (by omega), BitVec.getLsbD_setWidth, BitVec.getLsbD_ushiftRight,
    Nat.div_add_mod]
  simp [Nat.mod_lt]

theorem read_write_apart (h : Apart a 8 b 8) : read (write m a w) b = read m b :=
  read_congr fun x hx => write_off (h.symm x hx)

/-- Writing back what is there changes nothing. -/
theorem write_read_self : write m a (read m a) = m := by
  funext x
  by_cases hx : Within a 8 x
  · unfold Within at hx
    obtain ⟨i, hi, rfl⟩ : ∃ i, i < 8 ∧ x = a + BitVec.ofNat 64 i := by
      refine ⟨(x - a).toNat, hx, ?_⟩
      bv_omega
    rw [write_at hi]
    apply BitVec.eq_of_getLsbD_eq
    intro j hj
    rw [BitVec.getLsbD_setWidth, BitVec.getLsbD_ushiftRight, getLsbD_read (by omega)]
    have hdiv : (8 * i + j) / 8 = i := by omega
    have hmod : (8 * i + j) % 8 = j := by omega
    simp [hdiv, hmod, hj]
  · exact write_off hx

end memory

/-! ## Blocks of words -/

/-- The words one after the other from `a` on. -/
def writeWords (m : Memory) (a : Word) : List Word → Memory
  | [] => m
  | w :: ws => writeWords (write m a w) (a + 8) ws

theorem writeWords_off {ws : List Word} (hn : 8 * ws.length ≤ 2 ^ 64) {x : Word} :
    ∀ {m : Memory} {a : Word}, ¬ Within a (8 * ws.length) x → writeWords m a ws x = m x := by
  induction ws with
  | nil => intro m a _; rfl
  | cons w ws ih =>
    intro m a hx
    simp only [List.length_cons] at hn hx
    have hhead : ¬ Within a 8 x := by
      intro h
      unfold Within at h hx
      omega
    have htail : ¬ Within (a + 8) (8 * ws.length) x := by
      intro h
      unfold Within at h hx
      bv_omega
    calc writeWords m a (w :: ws) x
        = write m a w x := ih (by omega) htail
      _ = m x := write_off hhead

/-- `n` words from `a` on. -/
def readWords (m : Memory) (a : Word) : Nat → List Word
  | 0 => []
  | n + 1 => read m a :: readWords m (a + 8) n

theorem readWords_congr {m m' : Memory} {n : Nat} (hn : 8 * n ≤ 2 ^ 64) : ∀ {a : Word},
    (∀ x, Within a (8 * n) x → m x = m' x) → readWords m a n = readWords m' a n := by
  induction n with
  | zero => intro a _; rfl
  | succ n ih =>
    intro a h
    have hhead : ∀ x, Within a 8 x → Within a (8 * (n + 1)) x := by
      intro x hx
      unfold Within at hx ⊢
      omega
    have htail : ∀ x, Within (a + 8) (8 * n) x → Within a (8 * (n + 1)) x := by
      intro x hx
      unfold Within at hx ⊢
      bv_omega
    rw [readWords, readWords, read_congr fun x hx => h x (hhead x hx),
      ih (by omega) fun x hx => h x (htail x hx)]

/-- A block is read back as it was written. -/
theorem readWords_writeWords {ws : List Word} (hn : 8 * ws.length ≤ 2 ^ 64) :
    ∀ {m : Memory} {a : Word}, readWords (writeWords m a ws) a ws.length = ws := by
  induction ws with
  | nil => intro m a; rfl
  | cons w ws ih =>
    intro m a
    simp only [List.length_cons] at hn
    -- the words behind leave the first one alone
    have hkeep : ∀ x, Within a 8 x → writeWords (write m a w) (a + 8) ws x = write m a w x := by
      intro x hx
      apply writeWords_off (by omega)
      intro h
      unfold Within at h hx
      bv_omega
    have hhead : read (writeWords (write m a w) (a + 8) ws) a = w := by
      rw [read_congr hkeep, read_write_self]
    rw [List.length_cons, readWords, writeWords, hhead, ih (by omega)]

/-! ## Code -/

/-- An instruction over the registers `R`. -/
inductive Instr (R : Type) where
  | load (off : Nat) (base dst : R)
  | store (src : R) (off : Nat) (base : R)
  | ret
  deriving DecidableEq, Repr

/-- Registers, memory, and where control goes on. -/
structure State (R : Type) where
  reg : R → Word
  mem : Memory
  pc : Word

variable {R : Type} [DecidableEq R]

/-- One instruction, `sp` being the stack pointer. -/
def exec (sp : R) (s : State R) : Instr R → State R
  | .load off base dst =>
    { s with reg := Function.update s.reg dst (read s.mem (s.reg base + BitVec.ofNat 64 off)) }
  | .store src off base =>
    { s with mem := write s.mem (s.reg base + BitVec.ofNat 64 off) (s.reg src) }
  | .ret =>
    { s with reg := Function.update s.reg sp (s.reg sp + 8), pc := read s.mem (s.reg sp) }

/-- The instructions one after the other. -/
def execAll (sp : R) (s : State R) (code : List (Instr R)) : State R := code.foldl (exec sp) s

theorem execAll_append {sp : R} {s : State R} {c d : List (Instr R)} :
    execAll sp s (c ++ d) = execAll sp (execAll sp s c) d := List.foldl_append

end Machine
