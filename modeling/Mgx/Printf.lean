import Mgx.Comm
import Mgx.Lib.Bounded

/-
  The formatter.

  `mgx_vslprintf` works through a format string, `buf < last` being tested once
  for each plain character and each directive. What a directive stores without a
  further test comes first and is one byte (`Output.lead`); the rest is copied or
  padded in loops that test for themselves (`Output.pieces`).

  Correspondence (C++ ↔ Lean), `app/mgx_printf.cpp`:
    `mgx_sprintf_num`                      ↔ `sprintfNum`
      the loops that fill `temp`           ↔ `tempDigits`
      the padding loop                     ↔ `padding`
    `mgx_vslprintf`                        ↔ `mgxVslprintf`, `vslprintfLoop`
      from `*++fmt` to the conversion      ↔ `parseDirective`
      the `switch` on the conversion       ↔ `convert`
    `memcpy_end(buf, p, len)`              ↔ `Bounded.copy`

  A string is the memory from its first byte on: reading past the end of the list
  is undefined, as are a `va_arg` of another type than the argument has, a store at
  or past `last` and one in front of `temp` (`none`). The arithmetic of a `double`
  is not modelled: such an argument comes with what the code computes from it.
  `-i64` wraps.

  What is proved: `vslprintf_bounded_prefix`. For a format whose directives are
  complete and whose arguments match there is one text, and into a buffer of `n`
  bytes go its first `n` bytes.
-/
namespace Mgx
open Bounded CMem

/-- The code of an ASCII character. -/
def ch (c : Char) : UInt8 := UInt8.ofNat c.toNat

/-- What `mgx_vslprintf` computes from a `double`: its sign, and for each `frac_width` the whole part
and the rounded fraction of the absolute value. -/
structure Double where
  neg : Bool
  whole : Nat → BitVec 64
  frac : Nat → BitVec 64

/-- A variable argument, as `va_arg` tells them apart. -/
inductive VaArg where
  | i32 (v : BitVec 32)
  | i64 (v : BitVec 64)
  | str (mem : Bytes)
  | dbl (f : Double)

/-! ## Numbers -/

/-- `MGX_INT64_LEN`. -/
def mgxInt64Len : Nat := 20

/-- The tables `hex` and `HEX`, and `+ '0'`. -/
def digitChar (hex : Nat) (d : Nat) : UInt8 :=
  if d < 10 then ch '0' + UInt8.ofNat d
  else if hex = 1 then ch 'a' + UInt8.ofNat (d - 10)
  else ch 'A' + UInt8.ofNat (d - 10)

/-- `do { *--p = .. } while (v /= base)`, with `k` places left in front of `p`, where `acc` is.
`& 0xf` and `>>= 4` are the remainder and the quotient by 16. -/
def digitLoop (base hex : Nat) : Nat → Nat → Bytes → Option Bytes
  | 0, _, _ => none
  | k + 1, v, acc =>
    let acc := digitChar hex (v % base) :: acc
    if v / base = 0 then some acc else digitLoop base hex k (v / base) acc

/-- What is between `p` and the end of `temp`. -/
def tempDigits (ui64 : BitVec 64) (hex : Nat) : Option Bytes :=
  if hex = 0 then
    if ui64.toNat ≤ 0xffffffff then digitLoop 10 hex mgxInt64Len (ui64.setWidth 32).toNat []
    else digitLoop 10 hex mgxInt64Len ui64.toNat []
  else digitLoop 16 hex mgxInt64Len ui64.toNat []

/-- `while (len++ < width && buf < last) *buf++ = zero`. -/
def padding (zero : UInt8) (width : Nat) : Nat → Nat → Bytes
  | _, 0 => []
  | len, room + 1 => if len < width then zero :: padding zero width (len + 1) room else []

/-- `mgx_sprintf_num`. -/
def sprintfNum (ui64 : BitVec 64) (zero : UInt8) (hex width : Nat) : Writer UInt8 := fun room =>
  (tempDigits ui64 hex).bind fun p =>
    andThen (fun room => some (padding zero width p.length room)) (copy p) room

/-! ## Directives -/

/-- The local variables of a directive. -/
structure Directive where
  zero : UInt8
  width : Nat
  sign : Bool
  hex : Nat
  fracWidth : Nat
  slen : Nat

/-- `(size_t)-1`. -/
def noLen : Nat := 2 ^ 64 - 1

/-- `while (*fmt >= '0' && *fmt <= '9') n = n * 10 + (*fmt++ - '0')`, in a `uintptr_t`. -/
def readNumber : Nat → Bytes → Option (Nat × Bytes)
  | _, [] => none
  | n, b :: fmt =>
    if isDigit b then readNumber ((n * 10 + (b - ch '0').toNat) % 2 ^ 64) fmt
    else some (n, b :: fmt)

/-- The `for (;;)` over the modifiers. -/
def modifiers (d : Directive) : Bytes → List VaArg → Option (Directive × Bytes × List VaArg)
  | [], _ => none
  | b :: fmt, args =>
    if b = ch 'u' then modifiers { d with sign := false } fmt args
    else if b = ch 'X' then modifiers { d with hex := 2, sign := false } fmt args
    else if b = ch 'x' then modifiers { d with hex := 1, sign := false } fmt args
    else if b = ch '.' then
      (readNumber d.fracWidth fmt).map fun (n, fmt) => ({ d with fracWidth := n }, fmt, args)
    else if b = ch '*' then
      match args with
      | .i64 n :: args => modifiers { d with slen := n.toNat } fmt args
      | _ => none
    else some (d, b :: fmt, args)

/-- After the `%`: the variables, and the format from the conversion on. -/
def parseDirective (fmt : Bytes) (args : List VaArg) :
    Option (Directive × Bytes × List VaArg) :=
  fmt.head?.bind fun b =>
    (readNumber 0 fmt).bind fun (width, fmt) =>
      modifiers
        { zero := if b = ch '0' then ch '0' else ch ' '
          width := width
          sign := true
          hex := 0
          fracWidth := 0
          slen := noLen } fmt args

/-- What is stored with a test of its own. -/
inductive Piece where
  | byte (b : UInt8)
  | str (mem : Bytes)
  | strn (mem : Bytes) (slen : Nat)
  | num (ui64 : BitVec 64) (zero : UInt8) (hex width : Nat)

/-- What a conversion stores: a byte without a test, if any, then pieces. -/
structure Output where
  lead : Option UInt8
  pieces : List Piece

/-- `while (*p && buf < last) *buf++ = *p++`. -/
def copyString : Bytes → Writer UInt8
  | [], _ => none
  | b :: p, room =>
    if b = 0 then some []
    else match room with
      | 0 => some []
      | room + 1 => (copyString p room).map (b :: ·)

/-- `memcpy_end(buf, p, mgx_min(last - buf, slen))`. -/
def copyBytes (mem : Bytes) (slen : Nat) : Writer UInt8 := fun room =>
  if min room slen ≤ mem.length then some (mem.take (min room slen)) else none

def Piece.write : Piece → Writer UInt8
  | .byte b => copy [b]
  | .str mem => copyString mem
  | .strn mem slen => copyBytes mem slen
  | .num ui64 zero hex width => sprintfNum ui64 zero hex width

def Output.write (o : Output) : Writer UInt8 :=
  match o.lead with
  | none => concat (o.pieces.map Piece.write)
  | some b => andThen (one b) (concat (o.pieces.map Piece.write))

/-- From a signed value on: `-` first, then its absolute value. -/
def Directive.signed (d : Directive) (i64 : BitVec 64) : Output :=
  if i64.slt 0 then ⟨some (ch '-'), [.num (-i64) d.zero d.hex d.width]⟩
  else ⟨none, [.num i64 d.zero d.hex d.width]⟩

def Directive.unsigned (d : Directive) (ui64 : BitVec 64) : Output :=
  ⟨none, [.num ui64 d.zero d.hex d.width]⟩

/-- `i64 = (int64_t)va_arg(args, T)` or `ui64 = (uint64_t)va_arg(args, T)`, for a `T` of 32 bits. -/
def Directive.arg32 (d : Directive) (sign : Bool) : List VaArg → Option (Output × List VaArg)
  | .i32 v :: args =>
    some (if sign then d.signed (v.signExtend 64) else d.unsigned (v.setWidth 64), args)
  | _ => none

/-- The same for a `T` of 64 bits. -/
def Directive.arg64 (d : Directive) (sign : Bool) : List VaArg → Option (Output × List VaArg)
  | .i64 v :: args => some (if sign then d.signed v else d.unsigned v, args)
  | _ => none

/-- The `switch` on the conversion character. -/
def convert (d : Directive) (conv : UInt8) (args : List VaArg) : Option (Output × List VaArg) :=
  if conv = ch 's' then
    match args with
    | .str mem :: args =>
      some (⟨none, [if d.slen = noLen then .str mem else .strn mem d.slen]⟩, args)
    | _ => none
  else if conv = ch 'O' ∨ conv = ch 'T' then d.arg64 true args
  else if conv = ch 'P' then d.arg32 true args
  else if conv = ch 'M' then
    match args with
    | .i64 ms :: args => some (if ms = -1 then d.signed (-1) else d.unsigned ms, args)
    | _ => none
  else if conv = ch 'z' ∨ conv = ch 'l' ∨ conv = ch 'L' then d.arg64 d.sign args
  else if conv = ch 'i' ∨ conv = ch 'd' ∨ conv = ch 'D' then d.arg32 d.sign args
  else if conv = ch 'f' then
    match args with
    | .dbl f :: args =>
      some (⟨if f.neg then some (ch '-') else none,
        .num (f.whole d.fracWidth) d.zero 0 d.width ::
          if d.fracWidth = 0 then []
          else [.byte (ch '.'), .num (f.frac d.fracWidth) (ch '0') 0 d.fracWidth]⟩, args)
    | _ => none
  else if conv = ch 'p' then { d with hex := 2, zero := ch '0', width := 16 }.arg64 false args
  else if conv = ch 'c' then
    match args with
    | .i32 v :: args => some (⟨some (UInt8.ofNat (v.toNat % 256)), []⟩, args)
    | _ => none
  else if conv = ch 'Z' then some (⟨some 0, []⟩, args)
  else if conv = ch 'N' then some (⟨some 10, []⟩, args)
  else if conv = ch '%' then some (⟨some (ch '%'), []⟩, args)
  else some (⟨some conv, []⟩, args)

/-! ## The formatter -/

/-- What was stored, and how many directives were taken. -/
structure Printed where
  text : Bytes
  directives : Nat
  deriving DecidableEq, Repr

/-- First `out`, with `n` directives. -/
def Printed.after (out : Bytes) (n : Nat) (r : Printed) : Printed := ⟨out ++ r.text, n + r.directives⟩

/-- `while (*fmt && buf < last)`. Every turn moves `fmt`, so that a turn for each byte is enough. -/
def vslprintfLoop : Nat → Nat → Bytes → List VaArg → Option Printed
  | 0, _, _, _ => none
  | _ + 1, _, [], _ => none
  | turns + 1, room, b :: fmt, args =>
    if b = 0 ∨ room = 0 then some ⟨[], 0⟩
    else if b = ch '%' then
      (parseDirective fmt args).bind fun (d, fmt, args) =>
        match fmt with
        | [] => none
        | conv :: fmt =>
          (convert d conv args).bind fun (o, args) =>
            (o.write room).bind fun out =>
              (vslprintfLoop turns (room - out.length) fmt args).map (Printed.after out 1)
    else (vslprintfLoop turns (room - 1) fmt args).map (Printed.after [b] 0)

/-- `mgx_vslprintf` with `room` bytes from `buf` to `last`. -/
def mgxVslprintf (room : Nat) (fmt : Bytes) (args : List VaArg) : Option Printed :=
  vslprintfLoop (fmt.length + 1) room fmt args

/-! ## What a directive prints -/

/-- The bytes a piece puts into an unlimited buffer. -/
def Piece.text : Piece → Bytes
  | .byte b => [b]
  | .str mem => mem.takeWhile (· ≠ 0)
  | .strn mem slen => mem.take slen
  | .num ui64 zero hex width =>
    let p := (tempDigits ui64 hex).getD []
    List.replicate (width - p.length) zero ++ p

/-- The string ends, or is as long as was said. -/
def Piece.Readable : Piece → Prop
  | .str mem => 0 ∈ mem
  | .strn mem slen => slen ≤ mem.length
  | _ => True

def Output.text (o : Output) : Bytes := o.lead.toList ++ (o.pieces.map Piece.text).flatten

def Output.Readable (o : Output) : Prop := ∀ p ∈ o.pieces, p.Readable

/-- Numbers need no memory. -/
theorem Directive.signed_readable (d : Directive) (i64 : BitVec 64) : (d.signed i64).Readable := by
  intro p hp
  unfold Directive.signed at hp
  split at hp
  · obtain rfl := List.mem_singleton.mp hp
    trivial
  · obtain rfl := List.mem_singleton.mp hp
    trivial

/-- The digits fit into `temp` when the value is below the power. -/
theorem digitLoop_isSome {base hex : Nat} (hbase : 2 ≤ base) : ∀ {k v : Nat} {acc : Bytes},
    0 < k → v < base ^ k → ∃ p, digitLoop base hex k v acc = some p
  | k + 1, v, acc, _, hv => by
    unfold digitLoop
    by_cases hzero : v / base = 0
    · exact ⟨_, if_pos hzero⟩
    · simp only [hzero, if_false]
      have hdiv : v / base < base ^ k := by
        apply Nat.div_lt_of_lt_mul
        rwa [Nat.pow_succ, Nat.mul_comm] at hv
      have hk : 0 < k := by
        apply Nat.pos_of_ne_zero
        rintro rfl
        rw [Nat.zero_add, Nat.pow_one] at hv
        exact hzero (Nat.div_eq_of_lt hv)
      exact digitLoop_isSome hbase hk hdiv

theorem tempDigits_isSome (ui64 : BitVec 64) (hex : Nat) : ∃ p, tempDigits ui64 hex = some p := by
  have hlt := ui64.isLt
  have h10 : (2 : Nat) ^ 64 ≤ 10 ^ mgxInt64Len := by decide
  have h16 : (2 : Nat) ^ 64 ≤ 16 ^ mgxInt64Len := by decide
  unfold tempDigits
  split
  · split
    · have h32 := (ui64.setWidth 32).isLt
      exact digitLoop_isSome (by decide) (by decide) (by omega)
    · exact digitLoop_isSome (by decide) (by decide) (by omega)
  · exact digitLoop_isSome (by decide) (by decide) (by omega)

/-- The padding loop stores the fill character until the width is reached or the room is used up. -/
theorem padding_eq (zero : UInt8) (width room : Nat) : ∀ len,
    padding zero width len room = (List.replicate (width - len) zero).take room := by
  induction room with
  | zero => intro len; rw [List.take_zero]; rfl
  | succ room ih =>
    intro len
    rw [padding]
    split
    · next hlen =>
      have hsub : width - len = width - (len + 1) + 1 := by omega
      rw [ih, hsub, List.replicate_succ, List.take_succ_cons]
    · next hlen =>
      have hsub : width - len = 0 := by omega
      rw [hsub, List.replicate_zero, List.take_nil]

theorem fills_sprintfNum (ui64 : BitVec 64) (zero : UInt8) (hex width : Nat) :
    Fills (sprintfNum ui64 zero hex width) (Piece.num ui64 zero hex width).text := by
  obtain ⟨p, hp⟩ := tempDigits_isSome ui64 hex
  have hpad : Fills (fun room => some (padding zero width p.length room))
      (List.replicate (width - p.length) zero) := by
    intro room _
    exact congrArg some (padding_eq ..)
  intro room hroom
  unfold sprintfNum
  rw [Piece.text, hp, Option.bind_some, Option.getD_some]
  exact hpad.andThen (fills_copy p) room hroom

/-- The copy of a string stops at its NUL or where the room ends. -/
theorem fills_copyString {mem : Bytes} (h : 0 ∈ mem) :
    Fills (copyString mem) (mem.takeWhile (· ≠ 0)) := by
  induction mem with
  | nil => cases h
  | cons b p ih =>
    intro room _
    unfold copyString
    by_cases hb : b = 0
    · rw [if_pos hb, List.takeWhile_cons, if_neg (by simp [hb]), List.take_nil]
    · have hp : (0 : UInt8) ∈ p := (List.mem_cons.mp h).resolve_left (Ne.symm hb)
      rw [if_neg hb, List.takeWhile_cons, if_pos (by simp [hb])]
      cases room with
      | zero => rfl
      | succ room => simp only [ih hp room (Nat.zero_le _), Option.map_some, List.take_succ_cons]

theorem fills_copyBytes {mem : Bytes} {slen : Nat} (h : slen ≤ mem.length) :
    Fills (copyBytes mem slen) (mem.take slen) := by
  intro room _
  have hle : min room slen ≤ mem.length := Nat.le_trans (Nat.min_le_right ..) h
  rw [copyBytes, if_pos hle, List.take_take]

theorem Piece.fills {p : Piece} (h : p.Readable) : Fills p.write p.text := by
  cases p with
  | byte b => exact fills_copy [b]
  | str mem => exact fills_copyString h
  | strn mem slen => exact fills_copyBytes h
  | num ui64 zero hex width => exact fills_sprintfNum ui64 zero hex width

/-- A directive needs room for one byte, which the loop has tested for. -/
theorem Output.fills {o : Output} (h : o.Readable) : FillsFrom 1 o.write o.text := by
  have hpieces : Fills (concat (o.pieces.map Piece.write)) (o.pieces.map Piece.text).flatten :=
    fills_concat fun p hp => Piece.fills (h p hp)
  obtain ⟨lead, pieces⟩ := o
  cases lead with
  | none => exact hpieces.from 1
  | some b => exact (fillsFrom_one b).andThen hpieces

/-! ## Formats and their arguments -/

/-- The format ends with a NUL, up to which every directive is completed by a conversion, and the
arguments are of the types the directives take, with strings that can be read; `out` is the text. -/
inductive Formats : Bytes → List VaArg → Bytes → Prop
  | nul (mem : Bytes) (args : List VaArg) : Formats (0 :: mem) args []
  | char {b : UInt8} {fmt out : Bytes} {args : List VaArg} (hnul : b ≠ 0) (hchar : b ≠ ch '%')
      (h : Formats fmt args out) : Formats (b :: fmt) args (b :: out)
  | directive {fmt fmt' out : Bytes} {args args' args'' : List VaArg} {d : Directive}
      {conv : UInt8} {o : Output} (hparse : parseDirective fmt args = some (d, conv :: fmt', args'))
      (hconv : conv ≠ 0) (hout : convert d conv args' = some (o, args'')) (hread : o.Readable)
      (h : Formats fmt' args'' out) : Formats (ch '%' :: fmt) args (o.text ++ out)

/-- A directive without width and modifiers. -/
def plainDirective : Directive where
  zero := ch ' '
  width := 0
  sign := true
  hex := 0
  fracWidth := 0
  slen := noLen

/-- Characters that are neither NUL nor `%` stand for themselves. -/
theorem Formats.literal {l fmt out : Bytes} {args : List VaArg} (hnul : 0 ∉ l)
    (hpercent : ch '%' ∉ l) (h : Formats fmt args out) : Formats (l ++ fmt) args (l ++ out) := by
  induction l with
  | nil => exact h
  | cons b l ih =>
    refine .char ?_ ?_ (ih (fun hm => hnul (List.mem_cons_of_mem _ hm))
      fun hm => hpercent (List.mem_cons_of_mem _ hm))
    · rintro rfl
      exact hnul (List.mem_cons_self ..)
    · rintro rfl
      exact hpercent (List.mem_cons_self ..)

/-- The text of a string is the string, and it can be read. -/
theorem output_str {s : Bytes} (hnul : 0 ∉ s) :
    Output.text ⟨none, [.str (s ++ [0])]⟩ = s ∧ Output.Readable ⟨none, [.str (s ++ [0])]⟩ := by
  have hstop : (s ++ [0]).takeWhile (· ≠ 0) = s := by
    rw [List.takeWhile_append_of_pos]
    · simp
    · intro b hb
      have hne : b ≠ 0 := fun he => hnul (he ▸ hb)
      simp [hne]
  constructor
  · show [] ++ ((s ++ [0]).takeWhile (· ≠ 0) ++ []) = s
    rw [hstop, List.append_nil, List.nil_append]
  · intro p hp
    obtain rfl := List.mem_singleton.mp hp
    exact List.mem_append_right _ (List.mem_singleton_self 0)

/-- `%s` stands for its string. -/
theorem Formats.str {s fmt out : Bytes} {args : List VaArg} (hnul : 0 ∉ s)
    (h : Formats fmt args out) :
    Formats (ch '%' :: ch 's' :: fmt) (.str (s ++ [0]) :: args) (s ++ out) := by
  obtain ⟨htext, hread⟩ := output_str hnul
  nth_rewrite 2 [← htext]
  exact .directive rfl (by decide) rfl hread h

/-- `%d` stands for its number. -/
theorem Formats.int {fmt out : Bytes} {args : List VaArg} (v : BitVec 32)
    (h : Formats fmt args out) : Formats (ch '%' :: ch 'd' :: fmt) (.i32 v :: args)
      ((plainDirective.signed (v.signExtend 64)).text ++ out) :=
  .directive (o := plainDirective.signed (v.signExtend 64)) rfl (by decide) rfl
    (plainDirective.signed_readable _) h

/-- The arguments match the format. -/
def Matches (fmt : Bytes) (args : List VaArg) : Prop := ∃ out, Formats fmt args out

theorem readNumber_length {n m : Nat} {fmt fmt' : Bytes} (h : readNumber n fmt = some (m, fmt')) :
    fmt'.length ≤ fmt.length := by
  induction fmt generalizing n with
  | nil => cases h
  | cons b fmt ih =>
    rw [readNumber] at h
    split at h
    · exact Nat.le_succ_of_le (ih h)
    · cases h
      exact Nat.le_refl _

theorem modifiers_length {d d' : Directive} {fmt fmt' : Bytes} {args args' : List VaArg}
    (h : modifiers d fmt args = some (d', fmt', args')) : fmt'.length ≤ fmt.length := by
  induction fmt generalizing d args with
  | nil => cases h
  | cons b fmt ih =>
    unfold modifiers at h
    split at h
    · exact Nat.le_succ_of_le (ih h)
    split at h
    · exact Nat.le_succ_of_le (ih h)
    split at h
    · exact Nat.le_succ_of_le (ih h)
    split at h
    · obtain ⟨⟨n, rest⟩, hread, heq⟩ := Option.map_eq_some_iff.mp h
      cases heq
      exact Nat.le_succ_of_le (readNumber_length hread)
    split at h
    · split at h
      · exact Nat.le_succ_of_le (ih h)
      · cases h
    · cases h
      exact Nat.le_refl _

/-- A directive takes something of the format. -/
theorem parseDirective_length {d : Directive} {fmt fmt' : Bytes} {args args' : List VaArg}
    (h : parseDirective fmt args = some (d, fmt', args')) : fmt'.length ≤ fmt.length := by
  obtain ⟨b, -, h⟩ := Option.bind_eq_some_iff.mp h
  obtain ⟨⟨width, rest⟩, hread, h⟩ := Option.bind_eq_some_iff.mp h
  exact Nat.le_trans (modifiers_length h) (readNumber_length hread)

/-- The loop stores the beginning of the text. -/
theorem Formats.loop_text {fmt out : Bytes} {args : List VaArg} (h : Formats fmt args out) :
    ∀ turns room, fmt.length < turns →
      (vslprintfLoop turns room fmt args).map Printed.text = some (out.take room) := by
  induction h with
  | nul mem args =>
    intro turns room hturns
    obtain ⟨turns, rfl⟩ := Nat.exists_eq_add_one_of_ne_zero (Nat.ne_zero_of_lt hturns)
    rw [vslprintfLoop, if_pos (.inl rfl), List.take_nil]
    rfl
  | @char b fmt out args hnul hchar h ih =>
    intro turns room hturns
    obtain ⟨turns, rfl⟩ := Nat.exists_eq_add_one_of_ne_zero (Nat.ne_zero_of_lt hturns)
    cases room with
    | zero => rw [vslprintfLoop, if_pos (.inr rfl)]; rfl
    | succ room =>
      have hrest := ih turns room (Nat.lt_of_succ_lt_succ hturns)
      obtain ⟨r, hr, htext⟩ := Option.map_eq_some_iff.mp hrest
      rw [vslprintfLoop, if_neg (by simp [hnul]), if_neg hchar, Nat.add_sub_cancel, hr,
        List.take_succ_cons, ← htext]
      rfl
  | @directive fmt fmt' out args args' args'' d conv o hparse hconv hconvert hread h ih =>
    intro turns room hturns
    obtain ⟨turns, rfl⟩ := Nat.exists_eq_add_one_of_ne_zero (Nat.ne_zero_of_lt hturns)
    cases room with
    | zero => rw [vslprintfLoop, if_pos (.inr rfl)]; rfl
    | succ room =>
      have hlen : fmt'.length < turns := by
        have := parseDirective_length hparse
        rw [List.length_cons] at this hturns
        omega
      -- the loop has tested for room, which the unchecked byte needs
      have hwrite := Output.fills hread (room + 1) (Nat.succ_pos room)
      have hrest := ih turns (room + 1 - (o.text.take (room + 1)).length) hlen
      obtain ⟨r, hr, htext⟩ := Option.map_eq_some_iff.mp hrest
      have hpercent : ¬ (ch '%' = 0 ∨ room + 1 = 0) := by
        rintro (hzero | hzero)
        · exact absurd hzero (by decide)
        · omega
      simp only [vslprintfLoop, if_neg hpercent, if_true, hparse, hconvert, hwrite, hr,
        Option.bind_some, Option.map_some]
      rw [← take_append_take, ← htext]
      rfl

/-- Whatever the room, the beginning of the text. -/
theorem Formats.prints {fmt out : Bytes} {args : List VaArg} (h : Formats fmt args out)
    (room : Nat) : (mgxVslprintf room fmt args).map Printed.text = some (out.take room) :=
  h.loop_text _ room (Nat.lt_succ_self _)

/-- **Bounded output, and always a prefix.** For a format whose directives are complete and matching
arguments there is one text, of which the formatter stores the first `room` bytes when `room` bytes
are between `buf` and `last`, for every `room`. -/
theorem vslprintf_bounded_prefix (fmt : Bytes) (args : List VaArg) (h : Matches fmt args) :
    ∃ out : Bytes, ∀ room,
      (mgxVslprintf room fmt args).map Printed.text = some (out.take room) := by
  obtain ⟨out, hout⟩ := h
  exact ⟨out, hout.prints⟩

/-- `"%05d:%s"`. -/
def pairFormat : Bytes :=
  [ch '%', ch '0', ch '5', ch 'd', ch ':', ch '%', ch 's', 0]

/-- The arguments -12 and `"ab"`. -/
def pairArgs : List VaArg := [.i32 (-12), .str [ch 'a', ch 'b', 0]]

theorem vslprintf_bounded_prefix_pair : ∃ out : Bytes, ∀ room,
    (mgxVslprintf room pairFormat pairArgs).map Printed.text = some (out.take room) := by
  apply vslprintf_bounded_prefix
  have hstring : Formats [ch '%', ch 's', 0] [.str [ch 'a', ch 'b', 0]] _ :=
    .str (s := [ch 'a', ch 'b']) (by decide) (.nul [] [])
  refine ⟨_, .directive rfl (by decide) rfl ?_ (.char (by decide) (by decide) hstring)⟩
  intro p hp
  obtain rfl := List.mem_singleton.mp hp
  trivial

example : (mgxVslprintf 4 pairFormat pairArgs).map Printed.text =
    some [ch '-', ch '0', ch '0', ch '0'] := by decide

end Mgx
