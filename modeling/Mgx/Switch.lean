import Mathlib
import Mgx.Lib.Machine
import Mgx.Lib.Runs

/-
  The context switch.

  `_switch` saves the stack pointer, the frame pointer, the return address and
  the callee-saved registers of the caller in one `mgx_ctx_t` and goes on with
  what another one holds. The scheduler and each coroutine have a block of their
  own; a coroutine also has a stack of its own, and its first resumption goes to
  `_exec` with the values the constructor put into the block.

  Correspondence (C++ ↔ Lean), `misc/mgx_coroutine.cpp`, `include/mgx_coroutine.h`:
    `mgx_ctx_t`, the x86_64 part                 ↔ `MgxCtx`, at an address `ctxAt`
    the instructions of `_switch`                ↔ `switchCode`, run by `switch`
    `Mgx_coroutine::Mgx_coroutine`, what it puts
      into `m_ctx`                               ↔ `initCtx`
    `resume` and `yield`, `msleep`, `_exec` where
      they call `_switch`                        ↔ `.switch`
    `~Mgx_coroutine`                             ↔ `.delete`
    all other code of whoever runs               ↔ `.code`

  The code between two switches is compiled code that this model does not
  follow: it may do anything to the registers and to memory, but it leaves alone
  the block and the stack of whoever is suspended. `malloc` and `posix_memalign`
  hand out memory nobody alive uses. The program is built without frame pointers,
  so that on entry of `_switch` the stack pointer points at the return address. The
  registers are the general ones: MXCSR and the x87 control word, which a callee
  has to keep too and `_switch` does not save, are not modelled.

  What is proved: a call of `_switch` returns as any other call does, whatever
  the others did in between (`switch_transparent`), and the first resumption of
  a coroutine enters `_exec` on its own stack (`first_resume_enters`).
-/
namespace Mgx
open Runs Machine

/-- The registers of x86_64. -/
inductive Gpr where
  | rax | rbx | rcx | rdx | rsi | rdi | rbp | rsp
  | r8 | r9 | r10 | r11 | r12 | r13 | r14 | r15
  deriving DecidableEq, Repr

/-- `mgx_ctx_t`. -/
structure MgxCtx where
  rsp : Word
  rbp : Word
  rip : Word
  rbx : Word
  r12 : Word
  r13 : Word
  r14 : Word
  r15 : Word
  deriving DecidableEq, Repr

/-- The fields as they lie in memory. -/
def MgxCtx.words (c : MgxCtx) : List Word := [c.rsp, c.rbp, c.rip, c.rbx, c.r12, c.r13, c.r14, c.r15]

/-- `sizeof(mgx_ctx_t)`. -/
def ctxSize : Nat := 64

/-- The `mgx_ctx_t` at an address. -/
def ctxAt (m : Memory) (a : Word) : MgxCtx where
  rsp := read m a
  rbp := read m (a + 8)
  rip := read m (a + 16)
  rbx := read m (a + 24)
  r12 := read m (a + 32)
  r13 := read m (a + 40)
  r14 := read m (a + 48)
  r15 := read m (a + 56)

/-- `_switch`, the instructions that save the caller in `cur_ctx`, which is in `%rsi`. -/
def saveCode : List (Instr Gpr) :=
  [ .store .rsp 0 .rsi,
    .store .rbp 8 .rsi,
    .load 0 .rsp .rax,
    .store .rax 16 .rsi,
    .store .rbx 24 .rsi,
    .store .r12 32 .rsi,
    .store .r13 40 .rsi,
    .store .r14 48 .rsi,
    .store .r15 56 .rsi ]

/-- `_switch`, the instructions that go on with `new_ctx`, which is in `%rdx`. -/
def restoreCode : List (Instr Gpr) :=
  [ .load 56 .rdx .r15,
    .load 48 .rdx .r14,
    .load 40 .rdx .r13,
    .load 32 .rdx .r12,
    .load 24 .rdx .rbx,
    .load 8 .rdx .rbp,
    .load 0 .rdx .rsp,
    .load 16 .rdx .rax,
    -- the return address is put where `ret` takes it from
    .store .rax 0 .rsp,
    .ret ]

/-- `_switch`, from its first instruction. -/
def switch (s : State Gpr) : State Gpr := execAll .rsp s (saveCode ++ restoreCode)

/-! ## What `_switch` does -/

theorem MgxCtx.words_injective : Function.Injective MgxCtx.words := by
  intro c d h
  simpa only [MgxCtx.words, List.cons.injEq, and_true, ← MgxCtx.mk.injEq] using h

theorem words_ctxAt (m : Memory) (a : Word) : (ctxAt m a).words = readWords m a 8 := by
  simp [ctxAt, MgxCtx.words, readWords, BitVec.add_assoc]

theorem ctxAt_congr {m m' : Memory} {a : Word} (h : ∀ x, Within a ctxSize x → m x = m' x) :
    ctxAt m a = ctxAt m' a := by
  apply MgxCtx.words_injective
  rw [words_ctxAt, words_ctxAt, readWords_congr (by decide) h]

theorem ctxAt_writeWords (m : Memory) (a : Word) (c : MgxCtx) :
    ctxAt (writeWords m a c.words) a = c := by
  apply MgxCtx.words_injective
  rw [words_ctxAt]
  have hlen : 8 * c.words.length ≤ 2 ^ 64 := by simp [MgxCtx.words]
  exact readWords_writeWords hlen

/-- What a caller of `_switch` will find restored when it goes on: its return address and the
registers `_switch` saves. -/
def saved (s : State Gpr) : MgxCtx where
  rsp := s.reg .rsp
  rbp := s.reg .rbp
  rip := read s.mem (s.reg .rsp)
  rbx := s.reg .rbx
  r12 := s.reg .r12
  r13 := s.reg .r13
  r14 := s.reg .r14
  r15 := s.reg .r15

/-- The registers after the switch to a saved context. -/
def MgxCtx.restore (c : MgxCtx) (reg : Gpr → Word) : Gpr → Word
  | .rax => c.rip
  | .rbx => c.rbx
  | .rbp => c.rbp
  | .rsp => c.rsp + 8
  | .r12 => c.r12
  | .r13 => c.r13
  | .r14 => c.r14
  | .r15 => c.r15
  | r => reg r

theorem save_spec {s : State Gpr} (hslot : Apart (s.reg .rsi) ctxSize (s.reg .rsp) 8) :
    execAll .rsp s saveCode =
      { s with
        reg := Function.update s.reg .rax (read s.mem (s.reg .rsp))
        mem := writeWords s.mem (s.reg .rsi) (saved s).words } := by
  have hpart : ∀ off, off + 8 ≤ ctxSize →
      Apart (s.reg .rsi + BitVec.ofNat 64 off) 8 (s.reg .rsp) 8 :=
    fun off h => hslot.mono (fun x => within_part h (by decide)) fun x hx => hx
  have h0 : Apart (s.reg .rsi) 8 (s.reg .rsp) 8 := by simpa using hpart 0 (by decide)
  have h8 : Apart (s.reg .rsi + 8) 8 (s.reg .rsp) 8 := hpart 8 (by decide)
  -- the return address is read when two fields are already stored
  have hrip : read (write (write s.mem (s.reg .rsi) (s.reg .rsp)) (s.reg .rsi + 8) (s.reg .rbp))
      (s.reg .rsp) = read s.mem (s.reg .rsp) := by
    rw [read_write_apart h8, read_write_apart h0]
  simp only [BitVec.ofNat_eq_ofNat] at hrip
  simp [saveCode, execAll, exec, MgxCtx.words, saved, writeWords, BitVec.add_assoc, hrip]

theorem restore_spec (s : State Gpr) :
    execAll .rsp s restoreCode =
      { reg := (ctxAt s.mem (s.reg .rdx)).restore s.reg
        mem := write s.mem (ctxAt s.mem (s.reg .rdx)).rsp (ctxAt s.mem (s.reg .rdx)).rip
        pc := (ctxAt s.mem (s.reg .rdx)).rip } := by
  simp only [restoreCode, execAll, exec, ctxAt, List.foldl_cons, List.foldl_nil, State.mk.injEq]
  refine ⟨?_, by simp, by simp [read_write_self]⟩
  funext r
  cases r <;> simp [MgxCtx.restore]

/-- **The effect of `_switch`.** The caller is saved in its block; control goes on with what the
other block holds, the return address put back where `ret` takes it from. -/
theorem switch_spec {s : State Gpr} (hctx : Apart (s.reg .rsi) ctxSize (s.reg .rdx) ctxSize)
    (hslot : Apart (s.reg .rsi) ctxSize (s.reg .rsp) 8) :
    switch s =
      { reg := (ctxAt s.mem (s.reg .rdx)).restore s.reg
        mem := write (writeWords s.mem (s.reg .rsi) (saved s).words)
          (ctxAt s.mem (s.reg .rdx)).rsp (ctxAt s.mem (s.reg .rdx)).rip
        pc := (ctxAt s.mem (s.reg .rdx)).rip } := by
  -- the block that is loaded is not touched by the stores
  have hload : ctxAt (writeWords s.mem (s.reg .rsi) (saved s).words) (s.reg .rdx)
      = ctxAt s.mem (s.reg .rdx) :=
    ctxAt_congr fun x hx => writeWords_off (by simp [MgxCtx.words]) (hctx.symm x hx)
  have hrax : ∀ (c : MgxCtx) (w : Word),
      c.restore (Function.update s.reg .rax w) = c.restore s.reg := by
    intro c w
    funext r
    cases r <;> simp [MgxCtx.restore]
  rw [switch, execAll_append, save_spec hslot, restore_spec]
  simp [hload, hrax]

/-! ## Whose memory is whose -/

/-- The block and the stack of the scheduler or of a coroutine. -/
structure CoPlace where
  ctx : Word
  stack : Word
  size : Nat
  deriving DecidableEq, Repr

def CoPlace.Owns (p : CoPlace) (x : Word) : Prop :=
  Within p.ctx ctxSize x ∨ Within p.stack p.size x

/-- The machine, who is alive with which memory, and who runs: `none` is the scheduler. -/
structure Cores where
  m : State Gpr
  place : Option Nat → Option CoPlace
  cur : Option Nat

/-- `MGX_CO_STACK_SIZE`. -/
def coStackSize : Nat := 16 * 1024

/-- What the constructor stores in `m_ctx`; the other fields stay as `new` left them. -/
def initCtx (m : Memory) (p : CoPlace) (entry : Word) : Memory :=
  let m := write m (p.ctx + 8) p.stack
  let m := write m p.ctx (p.stack + BitVec.ofNat 64 p.size - 16)
  write m (p.ctx + 16) entry

/-- What happens: code other than `_switch`, up to the state it leaves; the construction of a
coroutine; a call of `_switch`; the destruction of a coroutine. -/
inductive CoresAct where
  | code (m : State Gpr)
  | create (c : Nat) (p : CoPlace)
  | switch (next : Option Nat)
  | delete (c : Nat)

/-- One step; `_exec` is at `entry`. `_switch` is called by the scheduler to go on with a coroutine
and by a coroutine to go on with the scheduler. -/
def Cores.step (entry : Word) (s : Cores) : CoresAct → Option Cores
  | .code m => some { s with m := m }
  | .create c p =>
    if s.place (some c) = none then
      some { s with
        m := { s.m with mem := initCtx s.m.mem p entry }
        place := Function.update s.place (some c) (some p) }
    else none
  | .switch next =>
    match s.place s.cur, s.place next with
    | some p, some q =>
      if s.cur.isNone ≠ next.isNone ∧ s.m.reg .rsi = p.ctx ∧ s.m.reg .rdx = q.ctx then
        some { s with m := Mgx.switch s.m, cur := next }
      else none
    | _, _ => none
  | .delete c =>
    if s.cur = none ∧ s.place (some c) ≠ none then
      some { s with place := Function.update s.place (some c) none }
    else none

/-- What the rest of the program owes: code leaves alone what belongs to others; the allocator
hands out memory nobody alive uses, for the stack whole pages; the caller of `_switch` has pushed
its return address on its own stack. -/
def Cores.Respects (s : Cores) : CoresAct → Prop
  | .code m => ∀ q pl, q ≠ s.cur → s.place q = some pl → ∀ x, pl.Owns x → m.mem x = s.m.mem x
  | .create _ p =>
    p.size = coStackSize ∧ p.stack.toNat % 4096 = 0 ∧ Apart p.ctx ctxSize p.stack p.size ∧
      ∀ q pl, s.place q = some pl → ∀ x, p.Owns x → ¬ pl.Owns x
  | .switch _ =>
    ∀ pl, s.place s.cur = some pl → ∀ x, Within (s.m.reg .rsp) 8 x → Within pl.stack pl.size x
  | .delete _ => True

/-- Memory is divided among those alive, and who is suspended will return from its own stack. -/
structure Cores.Separate (s : Cores) : Prop where
  live : s.place s.cur ≠ none
  own : ∀ q pl, s.place q = some pl → Apart pl.ctx ctxSize pl.stack pl.size
  others : ∀ q q' pl pl', q ≠ q' → s.place q = some pl → s.place q' = some pl' →
    ∀ x, pl.Owns x → ¬ pl'.Owns x
  slot : ∀ q pl, q ≠ s.cur → s.place q = some pl →
    ∀ x, Within (ctxAt s.m.mem pl.ctx).rsp 8 x → Within pl.stack pl.size x

/-- At the start the scheduler runs and there is no coroutine. -/
def Cores.start (m : State Gpr) (p : CoPlace) : Cores where
  m := m
  place := Function.update (fun _ => none) none (some p)
  cur := none

/-- Who is suspended, as it left: the context it will return to and the bytes of its stack. -/
structure Cores.Suspended (s : Cores) (q : Option Nat) (pl : CoPlace) (c : MgxCtx)
    (bytes : Memory) : Prop where
  away : q ≠ s.cur
  place : s.place q = some pl
  ctx : ctxAt s.m.mem pl.ctx = c
  stack : ∀ x, Within pl.stack pl.size x → s.m.mem x = bytes x

/-! ## Steps -/

variable {entry : Word} {s s' : Cores}

theorem Cores.step_switch {q : Option Nat} (h : s.step entry (.switch q) = some s') :
    ∃ p pl, s.place s.cur = some p ∧ s.place q = some pl ∧ q ≠ s.cur ∧
      s.m.reg .rsi = p.ctx ∧ s.m.reg .rdx = pl.ctx ∧ s' = { s with m := switch s.m, cur := q } := by
  simp only [Cores.step] at h
  split at h
  next p pl hp hpl =>
    split at h
    next hif =>
      obtain ⟨hne, hrsi, hrdx⟩ := hif
      refine ⟨p, pl, hp, hpl, ?_, hrsi, hrdx, (Option.some.inj h).symm⟩
      intro heq
      exact hne (by rw [heq])
    next => simp at h
  next => simp at h

theorem Cores.step_create {n : Nat} {p : CoPlace} (h : s.step entry (.create n p) = some s') :
    s.place (some n) = none ∧ s'.place = Function.update s.place (some n) (some p) ∧
      s'.m.mem = initCtx s.m.mem p entry ∧ s'.m.reg = s.m.reg ∧ s'.cur = s.cur := by
  simp only [Cores.step] at h
  split at h
  next hnew =>
    obtain rfl := Option.some.inj h
    exact ⟨hnew, rfl, rfl, rfl, rfl⟩
  next => simp at h

theorem Cores.step_delete {n : Nat} (h : s.step entry (.delete n) = some s') :
    s.cur = none ∧ s'.place = Function.update s.place (some n) none ∧ s'.m = s.m ∧
      s'.cur = s.cur := by
  simp only [Cores.step] at h
  split at h
  next hdel =>
    obtain rfl := Option.some.inj h
    exact ⟨hdel.1, rfl, rfl, rfl⟩
  next => simp at h

/-- The effect of a switch that is called as it should be. -/
theorem Cores.switch_effect (hsep : s.Separate) {q : Option Nat} (hok : s.Respects (.switch q))
    (h : s.step entry (.switch q) = some s') :
    ∃ p pl, s.place s.cur = some p ∧ s.place q = some pl ∧ q ≠ s.cur ∧
      s'.place = s.place ∧ s'.cur = q ∧
      s'.m = { reg := (ctxAt s.m.mem pl.ctx).restore s.m.reg
               mem := write (writeWords s.m.mem p.ctx (saved s.m).words)
                 (ctxAt s.m.mem pl.ctx).rsp (ctxAt s.m.mem pl.ctx).rip
               pc := (ctxAt s.m.mem pl.ctx).rip } := by
  obtain ⟨p, pl, hp, hpl, hne, hrsi, hrdx, rfl⟩ := Cores.step_switch h
  have hctx : Apart (s.m.reg .rsi) ctxSize (s.m.reg .rdx) ctxSize := by
    rw [hrsi, hrdx]
    intro x hx hx'
    exact hsep.others s.cur q p pl (Ne.symm hne) hp hpl x (Or.inl hx) (Or.inl hx')
  have hslot : Apart (s.m.reg .rsi) ctxSize (s.m.reg .rsp) 8 := by
    rw [hrsi]
    intro x hx hx'
    exact hsep.own s.cur p hp x hx (hok p hp x hx')
  have heff := switch_spec hctx hslot
  rw [hrsi, hrdx] at heff
  exact ⟨p, pl, hp, hpl, hne, rfl, rfl, heff⟩

/-- A switch writes in the block of the one that leaves and on the stack of the one that goes on. -/
theorem Cores.switch_frame (hsep : s.Separate) {p pl : CoPlace} {q : Option Nat}
    (hpl : s.place q = some pl) (hne : q ≠ s.cur) {x : Word}
    (hx : ¬ Within p.ctx ctxSize x) (hx' : ¬ Within pl.stack pl.size x) :
    write (writeWords s.m.mem p.ctx (saved s.m).words)
      (ctxAt s.m.mem pl.ctx).rsp (ctxAt s.m.mem pl.ctx).rip x = s.m.mem x := by
  have hslot : ¬ Within (ctxAt s.m.mem pl.ctx).rsp 8 x := fun h => hx' (hsep.slot q pl hne hpl x h)
  calc write (writeWords s.m.mem p.ctx (saved s.m).words)
        (ctxAt s.m.mem pl.ctx).rsp (ctxAt s.m.mem pl.ctx).rip x
      = writeWords s.m.mem p.ctx (saved s.m).words x := write_off hslot
    _ = s.m.mem x := writeWords_off (by simp [MgxCtx.words]) hx

/-- Whoever leaves is suspended with what it saved. -/
theorem Cores.suspended_of_leave (hsep : s.Separate) {q : Option Nat}
    (hok : s.Respects (.switch q)) (h : s.step entry (.switch q) = some s') :
    ∃ p, s.place s.cur = some p ∧ s'.Suspended s.cur p (saved s.m) s.m.mem := by
  obtain ⟨p, pl, hp, hpl, hne, hplace, hcur, hm⟩ := Cores.switch_effect hsep hok h
  -- the write on the other's stack is outside what the leaving one owns
  have hoff : ∀ x, p.Owns x → ¬ Within (ctxAt s.m.mem pl.ctx).rsp 8 x := by
    intro x hx hslot
    have hin : pl.Owns x := Or.inr (hsep.slot q pl hne hpl x hslot)
    exact hsep.others s.cur q p pl (Ne.symm hne) hp hpl x hx hin
  refine ⟨p, hp, ⟨?_, ?_, ?_, ?_⟩⟩
  · rw [hcur]
    exact Ne.symm hne
  · rw [hplace]
    exact hp
  · calc ctxAt s'.m.mem p.ctx
        = ctxAt (writeWords s.m.mem p.ctx (saved s.m).words) p.ctx := by
          rw [hm]
          exact ctxAt_congr fun x hx => write_off (hoff x (Or.inl hx))
      _ = saved s.m := ctxAt_writeWords _ _ _
  · intro x hx
    rw [hm]
    apply Cores.switch_frame hsep hpl hne
    · intro hctx
      exact hsep.own s.cur p hp x hctx hx
    · intro hstack
      exact hsep.others s.cur q p pl (Ne.symm hne) hp hpl x (Or.inr hx) (Or.inr hstack)

/-- Whoever goes on has its registers, its return address and its stack. -/
theorem Cores.resumed_of_suspended (hsep : s.Separate) {q : Option Nat} {pl : CoPlace} {c : MgxCtx}
    {bytes : Memory} (hsus : s.Suspended q pl c bytes) (hok : s.Respects (.switch q))
    (h : s.step entry (.switch q) = some s') :
    s'.cur = q ∧ s'.m.pc = c.rip ∧ s'.m.reg = c.restore s.m.reg ∧
      ∀ x, Within pl.stack pl.size x → s'.m.mem x = write bytes c.rsp c.rip x := by
  obtain ⟨p, pl', hp, hpl', hne, hplace, hcur, hm⟩ := Cores.switch_effect hsep hok h
  obtain rfl : pl = pl' := Option.some.inj (hsus.place.symm.trans hpl')
  rw [hsus.ctx] at hm
  refine ⟨hcur, by rw [hm], by rw [hm], ?_⟩
  intro x hx
  have hblock : ¬ Within p.ctx ctxSize x := by
    intro hctx
    exact hsep.others s.cur q p pl (Ne.symm hne) hp hpl' x (Or.inl hctx) (Or.inr hx)
  have hbytes : writeWords s.m.mem p.ctx (saved s.m).words x = bytes x := by
    rw [writeWords_off (by simp [MgxCtx.words]) hblock, hsus.stack x hx]
  rw [hm]
  simp only [write, hbytes]

theorem initCtx_off {m : Memory} {p : CoPlace} {x : Word} (hx : ¬ Within p.ctx ctxSize x) :
    initCtx m p entry x = m x := by
  have hpart : ∀ off, off + 8 ≤ ctxSize → ¬ Within (p.ctx + BitVec.ofNat 64 off) 8 x :=
    fun off hoff h => hx (within_part hoff (by decide) h)
  have h0 : ¬ Within p.ctx 8 x := by simpa using hpart 0 (by decide)
  have h8 : ¬ Within (p.ctx + 8) 8 x := hpart 8 (by decide)
  have h16 : ¬ Within (p.ctx + 16) 8 x := hpart 16 (by decide)
  rw [initCtx, write_off h16, write_off h0, write_off h8]

/-- The context a new coroutine starts with. -/
theorem ctxAt_initCtx (m : Memory) (p : CoPlace) :
    (ctxAt (initCtx m p entry) p.ctx).rsp = p.stack + BitVec.ofNat 64 p.size - 16 ∧
    (ctxAt (initCtx m p entry) p.ctx).rbp = p.stack ∧
    (ctxAt (initCtx m p entry) p.ctx).rip = entry := by
  have h0 : Apart p.ctx 8 (p.ctx + 8) 8 := by
    simpa using apart_parts (a := p.ctx) (show 0 + 8 ≤ 8 by decide) (show 8 + 8 ≤ 2 ^ 64 by decide)
  have h1 : Apart p.ctx 8 (p.ctx + 16) 8 := by
    simpa using apart_parts (a := p.ctx) (show 0 + 8 ≤ 16 by decide) (show 16 + 8 ≤ 2 ^ 64 by decide)
  have h2 : Apart (p.ctx + 8) 8 (p.ctx + 16) 8 :=
    apart_parts (a := p.ctx) (show 8 + 8 ≤ 16 by decide) (show 16 + 8 ≤ 2 ^ 64 by decide)
  simp only [ctxAt, initCtx]
  rw [read_write_apart h1.symm, read_write_self, read_write_apart h2.symm, read_write_apart h0,
    read_write_self, read_write_self]
  exact ⟨rfl, rfl, rfl⟩

/-- The first return address lies on the new stack. -/
theorem within_first_slot {a x : Word} {n : Nat} (hn : n = coStackSize)
    (hx : Within (a + BitVec.ofNat 64 n - 16) 8 x) : Within a n x := by
  subst hn
  unfold Within coStackSize at *
  bv_omega

/-- What another step leaves of someone suspended. -/
theorem Cores.suspended_step (hsep : s.Separate) {q : Option Nat} {pl : CoPlace} {c : MgxCtx}
    {bytes : Memory} (hsus : s.Suspended q pl c bytes) {a : CoresAct} (hok : s.Respects a)
    (hswitch : a ≠ .switch q) (hdel : ∀ n, q = some n → a ≠ .delete n)
    (h : s.step entry a = some s') : s'.Suspended q pl c bytes := by
  -- it is enough that the step leaves alone what the suspended one owns
  suffices hkeep : q ≠ s'.cur ∧ s'.place q = some pl ∧ ∀ x, pl.Owns x → s'.m.mem x = s.m.mem x by
    obtain ⟨haway, hplace, hmem⟩ := hkeep
    refine ⟨haway, hplace, ?_, ?_⟩
    · rw [← hsus.ctx]
      exact ctxAt_congr fun x hx => hmem x (Or.inl hx)
    · intro x hx
      rw [hmem x (Or.inr hx), hsus.stack x hx]
  cases a with
  | code m =>
    obtain rfl := Option.some.inj h
    exact ⟨hsus.away, hsus.place, fun x hx => hok q pl hsus.away hsus.place x hx⟩
  | create n p =>
    obtain ⟨hnew, hplace, hmem, -, hcur⟩ := Cores.step_create h
    have hq : q ≠ some n := by
      intro heq
      have hpl := hsus.place
      rw [heq, hnew] at hpl
      exact absurd hpl (by simp)
    refine ⟨hcur ▸ hsus.away, by rw [hplace, Function.update_of_ne hq, hsus.place], ?_⟩
    intro x hx
    rw [hmem]
    apply initCtx_off
    intro hctx
    exact hok.2.2.2 q pl hsus.place x (Or.inl hctx) hx
  | switch r =>
    obtain ⟨p, pl', hp, hpl', hne, hplace, hcur, hm⟩ := Cores.switch_effect hsep hok h
    have hqr : q ≠ r := fun heq => hswitch (by rw [heq])
    refine ⟨by rw [hcur]; exact hqr, by rw [hplace, hsus.place], ?_⟩
    intro x hx
    rw [hm]
    apply Cores.switch_frame hsep hpl' hne
    · intro hctx
      exact hsep.others q s.cur pl p hsus.away hsus.place hp x hx (Or.inl hctx)
    · intro hstack
      exact hsep.others q r pl pl' hqr hsus.place hpl' x hx (Or.inr hstack)
  | delete n =>
    obtain ⟨-, hplace, hm, hcur⟩ := Cores.step_delete h
    have hq : q ≠ some n := fun heq => hdel n heq rfl
    exact ⟨hcur ▸ hsus.away, by rw [hplace, Function.update_of_ne hq, hsus.place], fun x _ => by rw [hm]⟩

/-- Everyone but the running one is suspended with what its block holds. -/
theorem Cores.suspended_self {q : Option Nat} {pl : CoPlace} (hq : q ≠ s.cur)
    (hpl : s.place q = some pl) : s.Suspended q pl (ctxAt s.m.mem pl.ctx) s.m.mem :=
  ⟨hq, hpl, rfl, fun _ _ => rfl⟩

/-- A new coroutine gets memory that nobody owns. -/
theorem Cores.Separate.create (hsep : s.Separate) {n : Nat} {p : CoPlace}
    (hok : s.Respects (.create n p)) (h : s.step entry (.create n p) = some s') :
    s'.Separate := by
  have hsus : ∀ q pl, q ≠ s.cur → s.place q = some pl →
      s'.Suspended q pl (ctxAt s.m.mem pl.ctx) s.m.mem := fun q pl hq hpl =>
    Cores.suspended_step hsep (Cores.suspended_self hq hpl) hok (by simp) (by simp) h
  obtain ⟨hnew, hplace, hmem, -, hcur⟩ := Cores.step_create h
  obtain ⟨hsize, -, hown, hothers⟩ := hok
  -- a place of the new state is the new coroutine's or one that was there before
  have hcase : ∀ q pl, s'.place q = some pl →
      (q = some n ∧ pl = p) ∨ (q ≠ some n ∧ s.place q = some pl) := by
    intro q pl hpl
    rw [hplace, Function.update_apply] at hpl
    split at hpl
    next heq => exact Or.inl ⟨heq, (Option.some.inj hpl).symm⟩
    next hne => exact Or.inr ⟨hne, hpl⟩
  have hne : s.cur ≠ some n := fun heq => hsep.live (by rw [heq, hnew])
  refine ⟨by rw [hplace, hcur, Function.update_of_ne hne]; exact hsep.live, ?_, ?_, ?_⟩
  · intro q pl hpl
    obtain ⟨-, rfl⟩ | ⟨-, hold⟩ := hcase q pl hpl
    · exact hown
    · exact hsep.own q pl hold
  · intro q q' pl pl' hne hpl hpl' x hx hx'
    obtain ⟨rfl, rfl⟩ | ⟨-, hold⟩ := hcase q pl hpl
    · obtain ⟨rfl, -⟩ | ⟨-, hold'⟩ := hcase q' pl' hpl'
      · exact hne rfl
      · exact hothers q' pl' hold' x hx hx'
    · obtain ⟨-, rfl⟩ | ⟨-, hold'⟩ := hcase q' pl' hpl'
      · exact hothers q pl hold x hx' hx
      · exact hsep.others q q' pl pl' hne hold hold' x hx hx'
  · intro q pl hq hpl x hx
    obtain ⟨-, rfl⟩ | ⟨-, hold⟩ := hcase q pl hpl
    · rw [hmem, (ctxAt_initCtx s.m.mem pl).1] at hx
      exact within_first_slot hsize hx
    · rw [hcur] at hq
      rw [(hsus q pl hq hold).ctx] at hx
      exact hsep.slot q pl hq hold x hx

/-- Who leaves has its return address on its own stack. -/
theorem Cores.Separate.switch (hsep : s.Separate) {r : Option Nat} (hok : s.Respects (.switch r))
    (h : s.step entry (.switch r) = some s') : s'.Separate := by
  obtain ⟨p, hp, hleft⟩ := Cores.suspended_of_leave hsep hok h
  obtain ⟨-, pl, -, hpl, -, hplace, hcur, -⟩ := Cores.switch_effect hsep hok h
  refine ⟨by rw [hplace, hcur, hpl]; simp, ?_, ?_, ?_⟩
  · intro q pl hpl
    exact hsep.own q pl (hplace ▸ hpl)
  · intro q q' pl pl' hne hpl hpl'
    exact hsep.others q q' pl pl' hne (hplace ▸ hpl) (hplace ▸ hpl')
  · intro q pl hq hpl x hx
    rw [hplace] at hpl
    by_cases hqc : q = s.cur
    · -- the one that left: its return address is on its stack
      subst hqc
      obtain rfl : p = pl := Option.some.inj (hp.symm.trans hpl)
      rw [hleft.ctx] at hx
      exact hok p hp x hx
    · have hqr : q ≠ r := fun heq => hq (by rw [hcur, heq])
      have hsus := Cores.suspended_step hsep (Cores.suspended_self hqc hpl) hok
        (fun heq => hqr (by injection heq with heq; exact heq.symm)) (by simp) h
      rw [hsus.ctx] at hx
      exact hsep.slot q pl hqc hpl x hx

theorem Cores.Separate.delete (hsep : s.Separate) {n : Nat}
    (h : s.step entry (.delete n) = some s') : s'.Separate := by
  obtain ⟨hnone, hplace, hm, hcur⟩ := Cores.step_delete h
  have hcase : ∀ q pl, s'.place q = some pl → s.place q = some pl := by
    intro q pl hpl
    rw [hplace, Function.update_apply] at hpl
    split at hpl
    next => simp at hpl
    next => exact hpl
  have hlive : s'.place s'.cur ≠ none := by
    rw [hplace, hcur, hnone, Function.update_of_ne (by simp), ← hnone]
    exact hsep.live
  refine ⟨hlive, fun q pl hpl => hsep.own q pl (hcase q pl hpl), ?_, ?_⟩
  · intro q q' pl pl' hne hpl hpl'
    exact hsep.others q q' pl pl' hne (hcase q pl hpl) (hcase q' pl' hpl')
  · intro q pl hq hpl
    rw [hm]
    exact hsep.slot q pl (hcur ▸ hq) (hcase q pl hpl)

/-- **Every step keeps the division of memory.** -/
theorem Cores.separate_step (hsep : s.Separate) {a : CoresAct} (hok : s.Respects a)
    (h : s.step entry a = some s') : s'.Separate := by
  cases a with
  | code m =>
    have hsus : ∀ q pl, q ≠ s.cur → s.place q = some pl →
        s'.Suspended q pl (ctxAt s.m.mem pl.ctx) s.m.mem := fun q pl hq hpl =>
      Cores.suspended_step hsep (Cores.suspended_self hq hpl) hok (by simp) (by simp) h
    obtain rfl := Option.some.inj h
    refine ⟨hsep.live, hsep.own, hsep.others, ?_⟩
    intro q pl hq hpl x hx
    rw [(hsus q pl hq hpl).ctx] at hx
    exact hsep.slot q pl hq hpl x hx
  | create n p => exact hsep.create hok h
  | switch r => exact hsep.switch hok h
  | delete n => exact hsep.delete h

/-! ## Runs -/

theorem Cores.separate_start {m : State Gpr} {p : CoPlace}
    (hp : Apart p.ctx ctxSize p.stack p.size) : (Cores.start m p).Separate := by
  have hcase : ∀ q pl, (Cores.start m p).place q = some pl → q = none ∧ pl = p := by
    intro q pl hpl
    cases q with
    | none => exact ⟨rfl, (Option.some.inj hpl).symm⟩
    | some n => simp [Cores.start] at hpl
  refine ⟨by simp [Cores.start], ?_, ?_, ?_⟩
  · intro q pl hpl
    rw [(hcase q pl hpl).2]
    exact hp
  · intro q q' pl pl' hne hpl hpl'
    rw [(hcase q pl hpl).1, (hcase q' pl' hpl').1] at hne
    exact absurd rfl hne
  · intro q pl hq hpl
    exact absurd (hcase q pl hpl).1 hq

/-- Along every run from the start memory stays divided. -/
theorem Cores.separate_run {m : State Gpr} {p : CoPlace} (hp : Apart p.ctx ctxSize p.stack p.size)
    {acts : List CoresAct} (hok : Meets (Cores.step entry) Cores.Respects (Cores.start m p) acts)
    (hrun : run (Cores.step entry) (Cores.start m p) acts = some s) : s.Separate := by
  apply run_invariant (fun _ _ _ hsep hok h => Cores.separate_step hsep hok h) acts _ s _ hok hrun
  exact Cores.separate_start hp

/-- Neither a switch to `q` nor its end. -/
def Elsewhere (q : Option Nat) (a : CoresAct) : Prop :=
  a ≠ .switch q ∧ ∀ n, q = some n → a ≠ .delete n

/-- Whoever is suspended stays so, with its context and its stack, until it is switched to. -/
theorem Cores.suspended_run (hsep : s.Separate) {q : Option Nat} {pl : CoPlace} {c : MgxCtx}
    {bytes : Memory} (hsus : s.Suspended q pl c bytes) {acts : List CoresAct}
    (hok : Meets (Cores.step entry) Cores.Respects s acts) (haway : ∀ a ∈ acts, Elsewhere q a)
    (hrun : run (Cores.step entry) s acts = some s') : s'.Separate ∧ s'.Suspended q pl c bytes := by
  have hstep : ∀ t a t', (t.Separate ∧ t.Suspended q pl c bytes) → (Elsewhere q a ∧ t.Respects a) →
      Cores.step entry t a = some t' → t'.Separate ∧ t'.Suspended q pl c bytes := by
    intro t a t' ⟨hsep, hsus⟩ ⟨⟨hswitch, hdel⟩, hok⟩ h
    exact ⟨Cores.separate_step hsep hok h, Cores.suspended_step hsep hsus hok hswitch hdel h⟩
  exact run_invariant hstep acts s s' ⟨hsep, hsus⟩ (Meets.and_mem haway hok) hrun

/-- The registers a C function leaves as it found them. -/
def calleeSaved : List Gpr := [.rbx, .rbp, .r12, .r13, .r14, .r15]

theorem restore_calleeSaved {c : MgxCtx} {reg : Gpr → Word} {t : State Gpr} (hc : c = saved t)
    {r : Gpr} (hr : r ∈ calleeSaved) : c.restore reg r = t.reg r := by
  subst hc
  cases r <;> simp_all [calleeSaved, MgxCtx.restore, saved]

/-! ## A run -/

/-- The scheduler and one coroutine. -/
def samplePlace : Option Nat → CoPlace
  | none => { ctx := 0x1000, stack := 0x100000, size := 0x1000 }
  | some _ => { ctx := 0x2000, stack := 0x200000, size := coStackSize }

/-- The registers with which `q` calls `_switch` to leave for `q'`. -/
def sampleCall (q q' : Option Nat) : Gpr → Word
  | .rsi => (samplePlace q).ctx
  | .rdx => (samplePlace q').ctx
  | .rsp => (samplePlace q).stack + 0x800
  | .rbx => 7
  | _ => 0

def sampleStart : Cores :=
  Cores.start { reg := sampleCall none (some 0), mem := fun _ => 0, pc := 0 } (samplePlace none)

/-- The coroutine is made; its function at once calls `yield`. -/
def sampleCreated : Cores where
  m := { sampleStart.m with mem := initCtx sampleStart.m.mem (samplePlace (some 0)) 0x400000 }
  place := Function.update sampleStart.place (some 0) (some (samplePlace (some 0)))
  cur := none

def sampleResumed : Cores := { sampleCreated with m := switch sampleCreated.m, cur := some 0 }

def sampleYield : State Gpr := { sampleResumed.m with reg := sampleCall (some 0) none }

def sampleBack : Cores := { sampleCreated with m := switch sampleYield, cur := none }

theorem samplePlace_apart (q : Option Nat) :
    Apart (samplePlace q).ctx ctxSize (samplePlace q).stack (samplePlace q).size := by
  intro x hx hx'
  cases q <;> (simp only [samplePlace, Within, ctxSize, coStackSize] at hx hx'; bv_omega)

theorem samplePlace_others {x : Word} (h : (samplePlace (some 0)).Owns x) :
    ¬ (samplePlace none).Owns x := by
  intro h'
  simp only [CoPlace.Owns, samplePlace, Within, ctxSize, coStackSize] at h h'
  bv_omega

theorem sample_slot (q q' : Option Nat) {x : Word} (hx : Within (sampleCall q q' .rsp) 8 x) :
    Within (samplePlace q).stack (samplePlace q).size x := by
  cases q <;> (simp only [sampleCall, samplePlace, Within, coStackSize] at hx ⊢; bv_omega)

theorem sample_create : sampleStart.step 0x400000 (.create 0 (samplePlace (some 0)))
    = some sampleCreated := rfl

theorem sample_resume : sampleCreated.step 0x400000 (.switch (some 0)) = some sampleResumed := rfl

theorem sample_back : Cores.step 0x400000 { sampleResumed with m := sampleYield } (.switch none)
    = some sampleBack := rfl

theorem sample_meets : Meets (Cores.step 0x400000) Cores.Respects sampleStart
    [.create 0 (samplePlace (some 0)), .switch (some 0), .code sampleYield, .switch none] := by
  have hplace : ∀ q pl, sampleCreated.place q = some pl → pl = samplePlace q := by
    intro q pl h
    rcases q with _ | _ | n
    · exact (Option.some.inj h).symm
    · exact (Option.some.inj h).symm
    · simp [sampleCreated, sampleStart, Cores.start] at h
  have hmem : sampleYield.mem = sampleResumed.m.mem := by rw [sampleYield]
  apply meets_cons _ sample_create
  · apply meets_cons _ sample_resume
    · apply meets_cons _ rfl
      · apply meets_cons _ sample_back
        · trivial
        · intro pl h x hx
          rw [hplace (some 0) pl h]
          exact sample_slot (some 0) none hx
      · intro q pl hq h x hx
        rw [hmem]
    · intro pl h x hx
      rw [hplace none pl h]
      exact sample_slot none (some 0) hx
  · refine ⟨rfl, by decide, samplePlace_apart (some 0), ?_⟩
    intro q pl h x hx
    cases q with
    | none =>
      obtain rfl : samplePlace none = pl := Option.some.inj h
      exact samplePlace_others hx
    | some n => simp [sampleStart, Cores.start] at h

/-! ## What a caller sees -/

/-- **A call of `_switch` returns like any other call.** Whoever calls it in a run of the program
goes on, when it is next switched to, behind the call: at its return address, which is taken from
the stack, with the callee-saved registers and with every byte of its stack as they were,
whatever the others did meanwhile. -/
theorem switch_transparent {m : State Gpr} {p : CoPlace} {pre acts : List CoresAct}
    {next : Option Nat} (hp : Apart p.ctx ctxSize p.stack p.size)
    (hpre : run (Cores.step entry) (Cores.start m p) pre = some s)
    (hrun : run (Cores.step entry) s (.switch next :: acts ++ [.switch s.cur]) = some s')
    (hok : Meets (Cores.step entry) Cores.Respects (Cores.start m p)
      (pre ++ (.switch next :: acts ++ [.switch s.cur])))
    (haway : ∀ a ∈ acts, Elsewhere s.cur a) :
    s'.cur = s.cur ∧ s'.m.pc = read s.m.mem (s.m.reg .rsp) ∧
      s'.m.reg .rsp = s.m.reg .rsp + 8 ∧ (∀ r ∈ calleeSaved, s'.m.reg r = s.m.reg r) ∧
      ∀ pl, s.place s.cur = some pl → ∀ x, Within pl.stack pl.size x → s'.m.mem x = s.m.mem x := by
  obtain ⟨hokpre, hokrun⟩ := meets_append hok hpre
  have hsep : s.Separate := Cores.separate_run hp hokpre hpre
  -- leave
  obtain ⟨s₁, hleave, hrest⟩ := run_cons.mp hrun
  obtain ⟨hok₀, hok₁⟩ := hokrun
  obtain ⟨pl, hpl, hsus⟩ := Cores.suspended_of_leave hsep hok₀ hleave
  -- stay away
  obtain ⟨s₂, haw, hback⟩ := run_append.mp hrest
  obtain ⟨hokaw, hokback⟩ := meets_append (hok₁ s₁ hleave) haw
  obtain ⟨hsep₂, hsus₂⟩ :=
    Cores.suspended_run (Cores.separate_step hsep hok₀ hleave) hsus hokaw haway haw
  -- come back
  obtain ⟨s₃, hresume, hend⟩ := run_cons.mp hback
  obtain rfl : s₃ = s' := Option.some.inj hend
  obtain ⟨hcur, hpc, hreg, hstack⟩ := Cores.resumed_of_suspended hsep₂ hsus₂ hokback.1 hresume
  refine ⟨hcur, hpc, by rw [hreg]; rfl, ?_, ?_⟩
  · intro r hr
    rw [hreg]
    exact restore_calleeSaved rfl hr
  · intro pl' hpl' x hx
    obtain rfl : pl = pl' := Option.some.inj (hpl.symm.trans hpl')
    calc s₃.m.mem x
        = write s.m.mem (saved s.m).rsp (saved s.m).rip x := hstack x hx
      _ = s.m.mem x := congrFun write_read_self x

/-- The scheduler goes on behind its call, the coroutine having called `yield`. -/
theorem switch_transparent_sample :
    sampleBack.cur = none ∧
      sampleBack.m.pc = read sampleCreated.m.mem (sampleCreated.m.reg .rsp) ∧
      sampleBack.m.reg .rsp = sampleCreated.m.reg .rsp + 8 ∧
      (∀ r ∈ calleeSaved, sampleBack.m.reg r = sampleCreated.m.reg r) ∧
      ∀ pl, sampleCreated.place none = some pl → ∀ x, Within pl.stack pl.size x →
        sampleBack.m.mem x = sampleCreated.m.mem x := by
  have hrun : run (Cores.step 0x400000) sampleCreated
      (.switch (some 0) :: [.code sampleYield] ++ [.switch none]) = some sampleBack :=
    run_cons.mpr ⟨_, sample_resume, run_cons.mpr ⟨_, rfl, run_cons.mpr ⟨_, sample_back, rfl⟩⟩⟩
  have hpre : run (Cores.step 0x400000) sampleStart [.create 0 (samplePlace (some 0))]
      = some sampleCreated := run_cons.mpr ⟨_, sample_create, rfl⟩
  apply switch_transparent (samplePlace_apart none) hpre hrun sample_meets
  intro a ha
  obtain rfl := List.mem_singleton.mp ha
  exact ⟨by simp, by simp⟩

/-- **The first resumption of a coroutine enters `_exec`.** It does so on the coroutine's own stack,
aligned as at the entry of a function, and with the argument registers of the `_switch` call, the
first of which is the coroutine. -/
theorem first_resume_enters {m : State Gpr} {p pl : CoPlace} {pre acts : List CoresAct} {n : Nat}
    {s₂ : Cores} (hp : Apart p.ctx ctxSize p.stack p.size)
    (hpre : run (Cores.step entry) (Cores.start m p) pre = some s)
    (hrun : run (Cores.step entry) s (.create n pl :: acts) = some s₂)
    (hresume : Cores.step entry s₂ (.switch (some n)) = some s')
    (hok : Meets (Cores.step entry) Cores.Respects (Cores.start m p)
      (pre ++ .create n pl :: acts ++ [.switch (some n)]))
    (haway : ∀ a ∈ acts, Elsewhere (some n) a) :
    s'.cur = some n ∧ s'.m.pc = entry ∧
      s'.m.reg .rsp = pl.stack + BitVec.ofNat 64 (coStackSize - 8) ∧
      (s'.m.reg .rsp).toNat % 16 = 8 ∧ s'.m.reg .rbp = pl.stack ∧
      ∀ r ∈ [Gpr.rdi, .rsi, .rdx], s'.m.reg r = s₂.m.reg r := by
  rw [List.append_assoc] at hok
  obtain ⟨hokpre, hok₀, hok₁⟩ := meets_append hok hpre
  have hsep : s.Separate := Cores.separate_run hp hokpre hpre
  -- the constructor
  obtain ⟨s₁, hcreate, haw⟩ := run_cons.mp hrun
  obtain ⟨hnew, hplace, hmem, -, hcur⟩ := Cores.step_create hcreate
  have hsize : pl.size = coStackSize := hok₀.1
  have halign : pl.stack.toNat % 4096 = 0 := hok₀.2.1
  have hsus : s₁.Suspended (some n) pl (ctxAt (initCtx s.m.mem pl entry) pl.ctx) s₁.m.mem := by
    refine ⟨?_, by rw [hplace, Function.update_self], by rw [hmem], fun x _ => rfl⟩
    rw [hcur]
    intro heq
    exact hsep.live (by rw [← heq, hnew])
  -- what happens before it is resumed
  obtain ⟨hokaw, hokback⟩ := meets_append (hok₁ s₁ hcreate) haw
  obtain ⟨hsep₂, hsus₂⟩ :=
    Cores.suspended_run (Cores.separate_step hsep hok₀ hcreate) hsus hokaw haway haw
  obtain ⟨hcur', hpc, hreg, -⟩ := Cores.resumed_of_suspended hsep₂ hsus₂ hokback.1 hresume
  obtain ⟨hrsp, hrbp, hrip⟩ := @ctxAt_initCtx entry s.m.mem pl
  have hsp : s'.m.reg .rsp = pl.stack + BitVec.ofNat 64 (coStackSize - 8) := by
    rw [hreg, MgxCtx.restore, hrsp, hsize]
    unfold coStackSize
    bv_omega
  refine ⟨hcur', by rw [hpc, hrip], hsp, ?_, by rw [hreg, MgxCtx.restore, hrbp], ?_⟩
  · rw [hsp]
    unfold coStackSize
    bv_omega
  · intro r hr
    rw [hreg]
    cases r <;> simp_all [MgxCtx.restore]

theorem first_resume_enters_sample :
    sampleResumed.cur = some 0 ∧ sampleResumed.m.pc = 0x400000 ∧
      sampleResumed.m.reg .rsp = (samplePlace (some 0)).stack + BitVec.ofNat 64 (coStackSize - 8) ∧
      (sampleResumed.m.reg .rsp).toNat % 16 = 8 ∧
      sampleResumed.m.reg .rbp = (samplePlace (some 0)).stack ∧
      ∀ r ∈ [Gpr.rdi, .rsi, .rdx], sampleResumed.m.reg r = sampleCreated.m.reg r := by
  have hok : Meets (Cores.step 0x400000) Cores.Respects sampleStart
      [.create 0 (samplePlace (some 0)), .switch (some 0)] := by
    have hall := sample_meets
    exact ⟨hall.1, fun s' h => ⟨(hall.2 s' h).1, fun _ _ => trivial⟩⟩
  have hrun : run (Cores.step 0x400000) sampleStart [.create 0 (samplePlace (some 0))]
      = some sampleCreated := run_cons.mpr ⟨_, sample_create, rfl⟩
  apply first_resume_enters (samplePlace_apart none) (run_nil sampleStart) hrun sample_resume hok
  simp

end Mgx
