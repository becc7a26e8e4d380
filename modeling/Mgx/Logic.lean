import Mgx.Lib.Crc
import Mgx.Comm

/-
  What a worker does with a package in TCP mode.

  A completed package is checked against its CRC, against the occupancy its
  message header was filled in for, and against the table of handlers; then its
  handler is called.

  Correspondence (C++ ↔ Lean):
    `init_crc32_table` (misc/mgx_crc32.cpp)              ↔ `crc32Entry`, `crc32Table`
    `get_crc32`, its default `crc`                       ↔ `getCrc32`, `crc32Init`
    `pkg_handlers` (bussiness/mgx_logic_socket.cpp)      ↔ `pkgHandlers`
    the buffer a worker takes from the queue             ↔ `LogicMsg`
    `Mgx_logic_socket::th_msg_process_func`              ↔ `thMsgProcessFunc`
    `(this->*pkg_handlers[pkg_type])(..)`                ↔ `HandlerCall`

  What the handlers do is not modelled here.

  What is proved: `table_crc_eq_bitwise`, the table computes the CRC bit by bit;
  and `burst_discarded`. If a package is accepted, no package that differs from it
  within 32 consecutive bits of the body only is.
-/
namespace Mgx
open CMem

/-! ## The CRC -/

/-- One turn of the inner loop of `init_crc32_table`. -/
def crc32Turn (c : UInt32) : UInt32 :=
  if c &&& 1 ≠ 0 then (0xedb88320 : UInt32) ^^^ (c >>> 1) else c >>> 1

/-- `n` turns. -/
def crc32Turns : Nat → UInt32 → UInt32
  | 0, c => c
  | n + 1, c => crc32Turns n (crc32Turn c)

/-- The word `init_crc32_table` stores at the index `i`. -/
def crc32Entry (i : UInt32) : UInt32 := crc32Turns 8 i

/-- `crc32_table`. -/
def crc32Table : Vector UInt32 256 := Vector.ofFn fun i => crc32Entry (UInt32.ofNat i.val)

/-- The index `(crc ^ buf[i]) & 0xff`. -/
def crc32Index (crc : UInt32) (b : UInt8) : Fin 256 :=
  ⟨((crc ^^^ b.toUInt32) &&& 0xff).toNat, by
    rw [UInt32.toNat_and]
    exact Nat.lt_succ_of_le Nat.and_le_right⟩

/-- One turn of the loop of `get_crc32`. -/
def crc32Step (crc : UInt32) (b : UInt8) : UInt32 :=
  crc32Table.get (crc32Index crc b) ^^^ (crc >>> 8)

/-- `get_crc32` of the bytes `buf`, from `crc` on. -/
def getCrc32 (buf : Bytes) (crc : UInt32) : UInt32 := buf.foldl crc32Step crc

/-- The default of the parameter `crc`. -/
def crc32Init : UInt32 := 0xffffffff

/-! ## The package -/

/-- `pkg_type`. -/
def pkgType (b : Bytes) : Nat := (b.getD 2 0).toNat + 256 * (b.getD 3 0).toNat

/-- `crc32`. -/
def pkgCrc32 (b : Bytes) : UInt32 :=
  UInt32.ofNat ((b.getD 4 0).toNat + 256 * (b.getD 5 0).toNat + 256 ^ 2 * (b.getD 6 0).toNat +
    256 ^ 3 * (b.getD 7 0).toNat)

/-- The functions in the table. -/
inductive PkgHandler where
  | ping
  | register
  | login
  deriving DecidableEq, Repr

/-- `pkg_handlers`; the last entry is null. -/
def pkgHandlers : List (Option PkgHandler) := [some .ping, some .register, some .login, none]

/-- A buffer of the queue: the message header and the package behind it. -/
structure LogicMsg where
  hdr : MsgHdr
  pkg : Bytes

/-- A call of a handler with its arguments; `pkgBody` is `none` for a null pointer. -/
structure HandlerCall where
  handler : PkgHandler
  hdr : MsgHdr
  pkgBody : Option Bytes
  pkgBodySize : Nat
  deriving DecidableEq

/-- The test of the field `crc32`: zero without a body, else the CRC of the body. -/
def crcMatches (pkg : Bytes) : Option Bytes → Bool
  | none => pkgCrc32 pkg == 0
  | some body => getCrc32 body crc32Init == pkgCrc32 pkg

/-- `Mgx_logic_socket::th_msg_process_func`: the handler it calls, if it calls one. `none` where it
reads past the end of the buffer. -/
def thMsgProcessFunc (conn : ConnId → Conn) (m : LogicMsg) : Option (Option HandlerCall) :=
  let size := pkgSize m.pkg
  if m.pkg.length < pkgHdrSize then none
  else if size ≠ pkgHdrSize ∧ (size < pkgHdrSize ∨ m.pkg.length < size) then none
  else
    let body := (m.pkg.drop pkgHdrSize).take (size - pkgHdrSize)
    let pkgBody := if size = pkgHdrSize then none else some body
    if !crcMatches m.pkg pkgBody then some none
    else if !seqEq (conn m.hdr.pconn).curSeq m.hdr.curSeq then some none
    else
      match pkgHandlers[pkgType m.pkg]? with
      | none => some none
      | some none => some none
      | some (some handler) => some (some ⟨handler, m.hdr, pkgBody, size - pkgHdrSize⟩)

/-! ## The CRC bit by bit -/

/-- The polynomial of the table. -/
def crc32Poly : BitVec 32 := 0xedb88320

/-- The bits of a byte, least significant first. -/
def byteBits (b : UInt8) : List Bool := (List.range 8).map b.toNat.testBit

/-- The bits of a body in the order of transmission. -/
def bodyBits (body : Bytes) : List Bool := body.flatMap byteBits

theorem length_byteBits (b : UInt8) : (byteBits b).length = 8 := rfl

theorem length_bodyBits (body : Bytes) : (bodyBits body).length = 8 * body.length := by
  unfold bodyBits
  induction body with
  | nil => rfl
  | cons b body ih =>
    rw [List.flatMap_cons, List.length_append, ih, length_byteBits, List.length_cons]
    omega

/-- A byte packed into a register. -/
theorem pack_byteBits {w : Nat} (b : UInt8) :
    (Crc.pack (byteBits b) : BitVec w) = b.toBitVec.setWidth w := by
  apply BitVec.eq_of_getLsbD_eq
  intro i hi
  rw [Crc.getLsbD_pack, BitVec.getLsbD_setWidth]
  congr 1
  by_cases h8 : i < 8
  · have hlen : i < (byteBits b).length := h8
    rw [List.getD_eq_getElem _ _ hlen]
    simp [byteBits, BitVec.getLsbD]
  · have hlen : (byteBits b).length ≤ i := by rw [length_byteBits]; omega
    rw [List.getD_eq_default _ _ hlen, BitVec.getLsbD_of_ge _ _ (by omega)]

theorem byteBits_injective {a b : UInt8} (h : byteBits a = byteBits b) : a = b := by
  have hpack := congrArg (Crc.pack (w := 8)) h
  rw [pack_byteBits, pack_byteBits, BitVec.setWidth_eq, BitVec.setWidth_eq] at hpack
  exact UInt8.toBitVec_inj.mp hpack

/-- Different bodies have different bits. -/
theorem bodyBits_injective : ∀ {xs ys : Bytes}, bodyBits xs = bodyBits ys → xs = ys
  | [], [], _ => rfl
  | [], y :: ys, h => by
    have hlen := congrArg List.length h
    rw [length_bodyBits, length_bodyBits, List.length_cons, List.length_nil] at hlen
    omega
  | x :: xs, [], h => by
    have hlen := congrArg List.length h
    rw [length_bodyBits, length_bodyBits, List.length_cons, List.length_nil] at hlen
    omega
  | x :: xs, y :: ys, h => by
    obtain ⟨hhead, htail⟩ := List.append_inj h rfl
    rw [byteBits_injective hhead, bodyBits_injective htail]

theorem crc32Turn_toBitVec (c : UInt32) :
    (crc32Turn c).toBitVec = Crc.shift crc32Poly c.toBitVec := by
  have hbit : (c &&& 1).toBitVec = BitVec.setWidth 32 (BitVec.ofBool (c.toBitVec.getLsbD 0)) := by
    rw [UInt32.toBitVec_and]
    exact BitVec.and_one_eq_setWidth_ofBool_getLsbD
  unfold crc32Turn Crc.shift
  cases hb : c.toBitVec.getLsbD 0 with
  | true =>
    have hodd : c &&& 1 ≠ 0 := by
      intro h0
      rw [hb, h0] at hbit
      exact absurd hbit (by decide)
    rw [if_pos hodd, if_pos rfl]
    rfl
  | false =>
    have heven : c &&& 1 = 0 := by
      apply UInt32.toBitVec_inj.mp
      rw [hbit, hb]
      rfl
    rw [if_neg (not_not_intro heven), if_neg Bool.false_ne_true]
    rfl

theorem crc32Turns_toBitVec (n : Nat) (c : UInt32) :
    (crc32Turns n c).toBitVec = Crc.shifts crc32Poly n c.toBitVec := by
  induction n generalizing c with
  | zero => rfl
  | succ n ih => rw [crc32Turns, ih, crc32Turn_toBitVec]; rfl

/-- A turn of `get_crc32` is eight turns of the register, one for each bit of the byte. -/
theorem crc32Step_toBitVec (crc : UInt32) (b : UInt8) :
    (crc32Step crc b).toBitVec = Crc.feed crc32Poly crc.toBitVec (byteBits b) := by
  have hlow : (UInt32.ofNat (crc32Index crc b).val).toBitVec =
      (crc.toBitVec ^^^ b.toBitVec.setWidth 32) &&& BitVec.ofNat 32 (2 ^ 8 - 1) := by
    show (UInt32.ofNat ((crc ^^^ b.toUInt32) &&& 0xff).toNat).toBitVec = _
    rw [UInt32.ofNat_toNat, UInt32.toBitVec_and, UInt32.toBitVec_xor]
    rfl
  have hhigh : (crc.toBitVec ^^^ b.toBitVec.setWidth 32) >>> 8 = crc.toBitVec >>> 8 := by
    apply BitVec.eq_of_getLsbD_eq
    intro i _
    rw [BitVec.getLsbD_ushiftRight, BitVec.getLsbD_ushiftRight, BitVec.getLsbD_xor,
      BitVec.getLsbD_setWidth, BitVec.getLsbD_of_ge b.toBitVec (8 + i) (by omega), Bool.and_false,
      Bool.xor_false]
  rw [Crc.feed_eq crc32Poly _ _ (by rw [length_byteBits]; omega), length_byteBits, pack_byteBits,
    Crc.shifts_low, hhigh, ← hlow, ← crc32Turns_toBitVec, crc32Step, UInt32.toBitVec_xor]
  simp only [crc32Table, Vector.get_ofFn]
  rfl

/-- `get_crc32` is the register after the bits of the buffer. -/
theorem getCrc32_toBitVec (buf : Bytes) (crc : UInt32) :
    (getCrc32 buf crc).toBitVec = Crc.feed crc32Poly crc.toBitVec (bodyBits buf) := by
  induction buf generalizing crc with
  | nil => rfl
  | cons b buf ih =>
    show (getCrc32 buf (crc32Step crc b)).toBitVec = Crc.feed _ _ (byteBits b ++ bodyBits buf)
    rw [ih, crc32Step_toBitVec, Crc.feed_append]

/-- One bit of the CRC as it is defined: it is added to bit 0, the register moves right, and the
polynomial is added to it when the bit that went out was set. -/
def crc32Bit (crc : UInt32) (bit : Bool) : UInt32 :=
  let c := crc ^^^ UInt32.ofNat bit.toNat
  if c.toNat.testBit 0 then (c >>> 1) ^^^ 0xedb88320 else c >>> 1

/-- The CRC bit by bit, least significant first, from `crc` on, without a final inversion. -/
def crc32Bitwise (buf : Bytes) (crc : UInt32) : UInt32 := (bodyBits buf).foldl crc32Bit crc

theorem crc32Bit_toBitVec (crc : UInt32) (bit : Bool) :
    (crc32Bit crc bit).toBitVec = Crc.shift crc32Poly (crc.toBitVec ^^^ Crc.bit bit) := by
  have hin : (crc ^^^ UInt32.ofNat bit.toNat).toBitVec = crc.toBitVec ^^^ Crc.bit bit := by
    rw [UInt32.toBitVec_xor]
    cases bit <;> rfl
  unfold crc32Bit Crc.shift
  rw [← hin]
  show UInt32.toBitVec (if (crc ^^^ UInt32.ofNat bit.toNat).toNat.testBit 0 then _ else _) =
    if (crc ^^^ UInt32.ofNat bit.toNat).toNat.testBit 0 then _ else _
  split
  · rw [UInt32.toBitVec_xor, BitVec.xor_comm]
    rfl
  · rfl

theorem crc32Bitwise_toBitVec (buf : Bytes) (crc : UInt32) :
    (crc32Bitwise buf crc).toBitVec = Crc.feed crc32Poly crc.toBitVec (bodyBits buf) := by
  unfold crc32Bitwise
  generalize bodyBits buf = bits
  induction bits generalizing crc with
  | nil => rfl
  | cons bit bits ih => rw [List.foldl_cons, ih, crc32Bit_toBitVec, Crc.feed]

/-- **The table is right.** For every string of bytes and every starting value, `get_crc32` with the
table of `init_crc32_table` computes the CRC bit by bit. -/
theorem table_crc_eq_bitwise (buf : Bytes) (crc : UInt32) :
    getCrc32 buf crc = crc32Bitwise buf crc := by
  apply UInt32.toBitVec_inj.mp
  calc (getCrc32 buf crc).toBitVec
      = Crc.feed crc32Poly crc.toBitVec (bodyBits buf) := getCrc32_toBitVec buf crc
    _ = (crc32Bitwise buf crc).toBitVec := (crc32Bitwise_toBitVec buf crc).symm

/-- The string `a`; the usual value is the complement. -/
example : crc32Bitwise [97] crc32Init = ~~~0xe8b7be43 := by decide

/-- The test of the CRC, on the register. -/
theorem crcMatches_some_iff {pkg body : Bytes} : crcMatches pkg (some body) = true ↔
    Crc.feed crc32Poly crc32Init.toBitVec (bodyBits body) = (pkgCrc32 pkg).toBitVec := by
  rw [crcMatches, beq_iff_eq, ← UInt32.toBitVec_inj, getCrc32_toBitVec]

/-- A package with a body that has its CRC goes to the handler of its type. -/
theorem thMsgProcessFunc_of_crc {conn : ConnId → Conn} {m : LogicMsg} {handler : PkgHandler}
    {body : Bytes} (hsize : pkgHdrSize < pkgSize m.pkg) (hlen : pkgSize m.pkg ≤ m.pkg.length)
    (hbody : (m.pkg.drop pkgHdrSize).take (pkgSize m.pkg - pkgHdrSize) = body)
    (hcrc : Crc.feed crc32Poly crc32Init.toBitVec (bodyBits body) = (pkgCrc32 m.pkg).toBitVec)
    (hseq : seqEq (conn m.hdr.pconn).curSeq m.hdr.curSeq = true)
    (htype : pkgHandlers[pkgType m.pkg]? = some (some handler)) :
    thMsgProcessFunc conn m =
      some (some ⟨handler, m.hdr, some body, pkgSize m.pkg - pkgHdrSize⟩) := by
  have hshort : ¬ m.pkg.length < pkgHdrSize := by omega
  have hout : ¬ (pkgSize m.pkg ≠ pkgHdrSize ∧
      (pkgSize m.pkg < pkgHdrSize ∨ m.pkg.length < pkgSize m.pkg)) := by omega
  have hne : pkgSize m.pkg ≠ pkgHdrSize := by omega
  simp only [thMsgProcessFunc, if_neg hshort, if_neg hout, if_neg hne, hbody,
    crcMatches_some_iff.mpr hcrc, hseq, htype, Bool.not_true, Bool.false_eq_true, if_false]

/-- Two bodies of one length that differ within 32 consecutive bits only have different CRCs. -/
theorem getCrc32_ne_of_burst {body body' : Bytes} (hlen : body'.length = body.length)
    (hne : body' ≠ body) {j : Nat}
    (hwin : ∀ i, (bodyBits body')[i]? ≠ (bodyBits body)[i]? → j ≤ i ∧ i < j + 32) (crc : UInt32) :
    getCrc32 body' crc ≠ getCrc32 body crc := by
  intro h
  have hfeed := congrArg UInt32.toBitVec h
  rw [getCrc32_toBitVec, getCrc32_toBitVec] at hfeed
  have hbits : (bodyBits body').length = (bodyBits body).length := by
    rw [length_bodyBits, length_bodyBits, hlen]
  have hpoly : crc32Poly.msb = true := by decide
  exact Crc.feed_ne_of_burst hpoly _ hbits (fun he => hne (bodyBits_injective he)) hwin hfeed

/-! ## Corrupted packages -/

/-- The body a package with the header `head` is checked on. -/
theorem body_of_append {head body : Bytes} (hhead : head.length = pkgHdrSize) {n : Nat}
    (hn : n = pkgHdrSize + body.length) :
    ((head ++ body).drop pkgHdrSize).take (n - pkgHdrSize) = body := by
  rw [← hhead, List.drop_left, hn, hhead, Nat.add_sub_cancel_left, List.take_length]

theorem pkgCrc32_append {head body : Bytes} (hhead : head.length = pkgHdrSize) :
    pkgCrc32 (head ++ body) = pkgCrc32 head := by
  unfold pkgHdrSize at hhead
  simp only [pkgCrc32, List.getD_eq_getElem?_getD]
  rw [List.getElem?_append_left (by omega), List.getElem?_append_left (by omega),
    List.getElem?_append_left (by omega), List.getElem?_append_left (by omega)]

/-- A package with a body is handled only if the CRC in its header is that of the body. -/
theorem thMsgProcessFunc_body {conn : ConnId → Conn} {hdr : MsgHdr} {head body : Bytes}
    (hhead : head.length = pkgHdrSize) (hsize : pkgSize head = pkgHdrSize + body.length)
    (hbody : body ≠ []) :
    (getCrc32 body crc32Init ≠ pkgCrc32 head →
      thMsgProcessFunc conn ⟨hdr, head ++ body⟩ = some none) ∧
    ∀ call, thMsgProcessFunc conn ⟨hdr, head ++ body⟩ = some (some call) →
      getCrc32 body crc32Init = pkgCrc32 head := by
  have hpos : 0 < body.length := List.length_pos_iff.mpr hbody
  have hsize' : pkgSize (head ++ body) = pkgHdrSize + body.length := by
    rw [pkgSize_append (by rw [hhead]; decide), hsize]
  have hlong : ¬ (head ++ body).length < pkgHdrSize := by
    rw [List.length_append, hhead]; omega
  have hwhole : ¬ (pkgSize (head ++ body) ≠ pkgHdrSize ∧ (pkgSize (head ++ body) < pkgHdrSize ∨
      (head ++ body).length < pkgSize (head ++ body))) := by
    rw [hsize', List.length_append, hhead]; omega
  have hhas : ¬ pkgSize (head ++ body) = pkgHdrSize := by rw [hsize']; omega
  have hmatch : crcMatches (head ++ body) (some body) =
      (getCrc32 body crc32Init == pkgCrc32 head) := by rw [crcMatches, pkgCrc32_append hhead]
  simp only [thMsgProcessFunc, if_neg hlong, if_neg hwhole, if_neg hhas,
    body_of_append hhead hsize', hmatch]
  refine ⟨fun hcrc => if_pos (by simpa using hcrc), fun call h => ?_⟩
  by_contra hcrc
  rw [if_pos (by simpa using hcrc)] at h
  cases h

/-- **Corrupted packages reach no handler.** When a package with a body is handled, a package with
the same header and a different body of the same length, all differences within 32 consecutive bits,
has another CRC and is discarded, whenever it comes. -/
theorem burst_discarded {conn conn' : ConnId → Conn} {hdr hdr' : MsgHdr} {head body body' : Bytes}
    (hhead : head.length = pkgHdrSize) (hsize : pkgSize head = pkgHdrSize + body.length)
    (hbody : body ≠ []) {call : HandlerCall}
    (hcall : thMsgProcessFunc conn ⟨hdr, head ++ body⟩ = some (some call))
    (hlen : body'.length = body.length) (hne : body' ≠ body) {j : Nat}
    (hwin : ∀ i, (bodyBits body')[i]? ≠ (bodyBits body)[i]? → j ≤ i ∧ i < j + 32) :
    thMsgProcessFunc conn' ⟨hdr', head ++ body'⟩ = some none ∧
      getCrc32 body' crc32Init ≠ getCrc32 body crc32Init := by
  have hcrc := (thMsgProcessFunc_body hhead hsize hbody).2 call hcall
  have hdiff := getCrc32_ne_of_burst hlen hne hwin crc32Init
  have hbody' : body' ≠ [] := by
    intro h
    rw [h] at hlen
    exact hbody (List.length_eq_zero_iff.mp hlen.symm)
  -- the header names the CRC of the first body
  refine ⟨(thMsgProcessFunc_body hhead (by rw [hsize, hlen]) hbody').1 ?_, hdiff⟩
  rw [← hcrc]
  exact hdiff

/-- The header of a LOGIN package with the body `abc`. -/
def loginHead : Bytes := [11, 0, 2, 0, 0x3d, 0xbe, 0xdb, 0xca]

/-- Two bits of the first byte are flipped. -/
theorem burst_discarded_login :
    thMsgProcessFunc (fun _ => Conn.new) ⟨⟨0, 0⟩, loginHead ++ [97, 98, 99]⟩ =
        some (some ⟨.login, ⟨0, 0⟩, some [97, 98, 99], 3⟩) ∧
      thMsgProcessFunc (fun _ => Conn.new) ⟨⟨0, 0⟩, loginHead ++ [98, 98, 99]⟩ = some none ∧
      getCrc32 [98, 98, 99] crc32Init ≠ getCrc32 [97, 98, 99] crc32Init := by
  have hcall : thMsgProcessFunc (fun _ => Conn.new) ⟨⟨0, 0⟩, loginHead ++ [97, 98, 99]⟩ =
      some (some ⟨.login, ⟨0, 0⟩, some [97, 98, 99], 3⟩) :=
    thMsgProcessFunc_of_crc (by decide) (by decide) rfl (by decide +kernel) rfl rfl
  refine ⟨hcall, burst_discarded (by decide) (by decide) (by decide) hcall (by decide) (by decide)
    (j := 0) ?_⟩
  intro i hi
  refine ⟨Nat.zero_le i, ?_⟩
  by_contra hout
  have hend : ∀ xs : Bytes, xs.length = 3 → (bodyBits xs)[i]? = none := fun xs hxs =>
    List.getElem?_eq_none (by rw [length_bodyBits, hxs]; omega)
  exact hi ((hend _ rfl).trans (hend _ rfl).symm)

end Mgx
