import Mgx.Lib.Chunks
import Mgx.Request

/-
  TCP framing.

  `parse` is the reference: take 8 bytes; if the size they announce lies in
  [8, 29000], a package is that header with the bytes that complete it, otherwise
  just these 8 bytes are dropped; repeat. The second component is the unfinished
  tail.

  What is proved:
    1. `readChunk_splits`: a read may be cut in two, so the outcome of any
       segmentation is that of one byte at a time (`Chunks.feed_flatten`).
    2. `sim_byte`: one byte takes the state that stands for a tail `t` to the
       state that stands for the tail of `t` with the byte, and emits the
       packages the reference emits.
    3. `tcp_framing`: for every run of the read handler the buffers handed to
       the thread pool are the packages of the bytes consumed, each byte of them
       initialized, and the state reached depends on these bytes only.
-/
namespace Mgx
open CMem Chunks

/-! ## The reference parser -/

/-- The packages of a byte stream, and the bytes of the unfinished one. -/
def parse (bs : Bytes) : List Bytes × Bytes :=
  if bs.length < 8 then ([], bs)
  else if pkgSize bs < 8 ∨ 29000 < pkgSize bs then parse (bs.drop 8)
  else if bs.length < pkgSize bs then ([], bs)
  else
    let r := parse (bs.drop (pkgSize bs))
    (bs.take (pkgSize bs) :: r.1, r.2)
termination_by bs.length
decreasing_by
  · simp only [List.length_drop]; omega
  · simp only [List.length_drop]; omega

/-- A package as it stands on the wire: its first two bytes give its length, from 8 to 29000. -/
def WellFormed (p : Bytes) : Prop := pkgSize p = p.length ∧ 8 ≤ p.length ∧ p.length ≤ 29000

theorem parse_short {x : Bytes} (h : x.length < 8) : parse x = ([], x) := by
  rw [parse, if_pos h]

theorem parse_reject {x : Bytes} (h : 8 ≤ x.length) (hbad : pkgSize x < 8 ∨ 29000 < pkgSize x) :
    parse x = parse (x.drop 8) := by
  rw [parse, if_neg (by omega), if_pos hbad]

theorem parse_partial {x : Bytes} (h : 8 ≤ x.length)
    (hok : ¬ (pkgSize x < 8 ∨ 29000 < pkgSize x)) (hlt : x.length < pkgSize x) :
    parse x = ([], x) := by
  rw [parse, if_neg (by omega), if_neg hok, if_pos hlt]

theorem parse_package {x : Bytes} (h : 8 ≤ x.length)
    (hok : ¬ (pkgSize x < 8 ∨ 29000 < pkgSize x)) (hle : pkgSize x ≤ x.length) :
    parse x = (x.take (pkgSize x) :: (parse (x.drop (pkgSize x))).1,
      (parse (x.drop (pkgSize x))).2) := by
  rw [parse, if_neg (by omega), if_neg hok, if_neg (by omega)]

/-- The reference may stop anywhere and go on with the unfinished tail. -/
theorem parse_append (x y : Bytes) :
    parse (x ++ y) = ((parse x).1 ++ (parse ((parse x).2 ++ y)).1, (parse ((parse x).2 ++ y)).2) := by
  fun_induction parse x with
  | case1 x h => simp
  | case2 x h hbad ih =>
    rw [parse_reject (x := x ++ y) (by simp only [List.length_append]; omega)
      (by rw [pkgSize_append (by omega)]; exact hbad), List.drop_append_of_le_length (by omega), ih]
  | case3 x h hok hlt => simp
  | case4 x h hok hle r ih =>
    have hp : pkgSize (x ++ y) = pkgSize x := pkgSize_append (by omega)
    rw [parse_package (x := x ++ y) (by simp only [List.length_append]; omega)
      (by rw [hp]; exact hok) (by rw [hp, List.length_append]; omega), hp,
      List.drop_append_of_le_length (by omega), List.take_append_of_le_length (by omega), ih]
    simp [r]

/-- Well-formed packages, one after the other, are parsed as exactly these packages. -/
theorem parse_packages : ∀ (ps : List Bytes), (∀ p ∈ ps, WellFormed p) →
    parse ps.flatten = (ps, [])
  | [], _ => parse_short (by simp)
  | p :: ps, h => by
    obtain ⟨hsize, hlo, hhi⟩ := h p List.mem_cons_self
    have ih := parse_packages ps (fun q hq => h q (List.mem_cons_of_mem p hq))
    have hp : pkgSize (p ++ ps.flatten) = p.length := by rw [pkgSize_append (by omega), hsize]
    rw [List.flatten_cons, parse_package (by simp only [List.length_append]; omega) (by omega)
      (by simp only [List.length_append]; omega), hp, List.drop_left, List.take_left, ih]

/-! ## Cutting a read in two -/

/-- One call of the read handler on a chunk: the connection and the buffers handed on. -/
def readChunk (self : ConnId) (c : Conn) (x : Bytes) : Option (Conn × List RecvMem) :=
  (readRequestHandler self c (.got x)).map (fun out => (out.conn, out.msgs))

theorem HdrBuf.write_write {b b' b'' : HdrBuf} {off : Nat} {x y : Bytes}
    (h : b.write off x = some b') (h' : b'.write (off + x.length) y = some b'') :
    b.write off (x ++ y) = some b'' := by
  unfold HdrBuf.write at h h' ⊢
  split at h
  · rename_i hx
    simp only [Option.some.injEq] at h
    subst h
    split at h'
    · rename_i hy
      rw [length_overwrite hx] at hy
      simp only [Option.some.injEq] at h'
      subst h'
      have hxy : off + (x ++ y).length ≤ b.bytes.length := by
        simp only [List.length_append]; omega
      rw [dif_pos hxy]
      simp only [overwrite_overwrite hy]
    · simp at h'
  · simp at h

theorem subU32_subU32 {r a b : Nat} (h : a + b ≤ r) (hr : r < 2 ^ 32) :
    subU32 (subU32 r a) b = subU32 r (a + b) := by
  unfold subU32; omega

theorem RecvPtr.add_add (p : RecvPtr) (a b : Nat) : (p.add a).add b = p.add (a + b) := by
  cases p <;> simp only [RecvPtr.add, Nat.add_assoc]

theorem shortRead_withHdrBuf {c : Conn} {s : RecvStat} {a b : Nat} (h : a + b ≤ c.restRecvSize)
    (hr : c.restRecvSize < 2 ^ 32) (u v : HdrBuf) :
    shortRead ((shortRead (c.withHdrBuf u) s a).conn.withHdrBuf v) s b =
      shortRead (c.withHdrBuf v) s (a + b) := by
  simp only [shortRead, Conn.withHdrBuf, RecvPtr.add_add, subU32_subU32 h hr]

theorem shortRead_withRecvMem {c : Conn} {s : RecvStat} {a b : Nat} (h : a + b ≤ c.restRecvSize)
    (hr : c.restRecvSize < 2 ^ 32) (u v : RecvMem) :
    shortRead ((shortRead (c.withRecvMem u) s a).conn.withRecvMem v) s b =
      shortRead (c.withRecvMem v) s (a + b) := by
  simp only [shortRead, Conn.withRecvMem, RecvPtr.add_add, subU32_subU32 h hr]

/-- A short read followed by a read of the rest is one read. -/
theorem readChunk_cut {self : ConnId} {c : Conn} {x y : Bytes} {out : ReadOut}
    (hx : readRequestHandler self c (.got x) = some out) (hm : out.msgs = [])
    (hxy : readRequestHandler self c (.got (x ++ y)) = readRequestHandler self out.conn (.got y)) :
    readChunk self c (x ++ y) = feed (readChunk self) c [x, y] := by
  have hxc : readChunk self c x = some (out.conn, []) := by
    simp only [readChunk, hx, Option.map_some, hm]
  have hyc : readChunk self c (x ++ y) = readChunk self out.conn y := by
    simp only [readChunk, hxy]
  rw [hyc]
  simp only [feed, hxc, Option.bind_some, Option.map_some, List.append_nil, List.nil_append]
  cases readChunk self out.conn y <;> rfl

/-- The header states obey the law. -/
theorem HdrAt.cut {c : Conn} {k : Nat} (h : HdrAt c k) (self : ConnId) {x y : Bytes}
    (hx : 0 < x.length) (hy : 0 < y.length) (hf : x.length + y.length ≤ c.restRecvSize) :
    readChunk self c (x ++ y) = feed (readChunk self) c [x, y] ∧
      ∀ r, readChunk self c x = some r → y.length ≤ r.1.restRecvSize := by
  have hrest := h.rest
  have hlt : c.restRecvSize < 2 ^ 32 := by unfold pkgHdrSize at hrest; omega
  have hsub := subU32_of_le (a := c.restRecvSize) (b := x.length) (by omega) hlt
  obtain ⟨b, hb, -⟩ := h.write (x := x) (by omega)
  have hread := h.read self hx hb
  rw [if_neg (by omega)] at hread
  have h' := h.short (b := b) hx (by omega : x.length < c.restRecvSize)
  have hroom : (shortRead (c.withHdrBuf b) .pkgHdrReceiving x.length).conn.restRecvSize
      = c.restRecvSize - x.length := hsub
  obtain ⟨b', hb', -⟩ := h'.write (x := y) (by omega)
  have hready := h'.read self hy hb'
  have hreadxy := h.read self (x := x ++ y) (by simp only [List.length_append]; omega)
    (HdrBuf.write_write hb hb')
  refine ⟨readChunk_cut hread rfl ?_, fun r hr => ?_⟩
  · rw [hreadxy, hready, hroom, List.length_append]
    by_cases hfull : x.length + y.length = c.restRecvSize
    · rw [if_pos hfull, if_pos (by omega)]
      rfl
    · rw [if_neg hfull, if_neg (by omega)]
      exact congrArg some (shortRead_withHdrBuf hf hlt b b').symm
  · simp only [readChunk, hread, Option.map_some, Option.some.injEq] at hr
    subst hr
    simp only [hroom]; omega

/-- The body states obey the law. -/
theorem BodyAt.cut {c : Conn} {m : RecvMem} {k : Nat} (h : BodyAt c m k) (self : ConnId)
    {x y : Bytes} (hx : 0 < x.length) (hy : 0 < y.length)
    (hf : x.length + y.length ≤ c.restRecvSize) :
    readChunk self c (x ++ y) = feed (readChunk self) c [x, y] ∧
      ∀ r, readChunk self c x = some r → y.length ≤ r.1.restRecvSize := by
  have hrest := h.rest
  have hsize := h.size
  have hlt : c.restRecvSize < 2 ^ 32 := by unfold pkgMaxSize at hsize; omega
  have hsub := subU32_of_le (a := c.restRecvSize) (b := x.length) (by omega) hlt
  have hread := h.read self hx (by omega)
  simp only [if_neg (by omega : ¬ x.length = c.restRecvSize)] at hread
  have h' := h.short hx (by omega : x.length < c.restRecvSize)
  have hroom : (shortRead (c.withRecvMem { m with pkg := overwrite m.pkg k (x.map some) })
      .pkgBodyReceiving x.length).conn.restRecvSize = c.restRecvSize - x.length := hsub
  have hready := h'.read self (x := y) hy (by omega)
  have hreadxy := h.read self (x := x ++ y) (by simp only [List.length_append]; omega)
    (by simp only [List.length_append]; omega)
  have hmem : overwrite (overwrite m.pkg k (x.map some)) (k + x.length) (y.map some)
      = overwrite m.pkg k ((x ++ y).map some) := by
    rw [List.map_append, ← overwrite_overwrite (by simp only [List.length_map]; omega),
      List.length_map]
  refine ⟨readChunk_cut hread rfl ?_, fun r hr => ?_⟩
  · rw [hreadxy, hready, hroom, hmem, List.length_append]
    by_cases hfull : x.length + y.length = c.restRecvSize
    · rw [if_pos hfull, if_pos (by omega)]
      rfl
    · rw [if_neg hfull, if_neg (by omega)]
      exact congrArg some (shortRead_withRecvMem hf hlt _ _).symm
  · simp only [readChunk, hread, Option.map_some, Option.some.injEq] at hr
    subst hr
    simp only [hroom]; omega

/-- **A read may be cut in two.** -/
theorem readChunk_splits (self : ConnId) : Splits (readChunk self) Conn.restRecvSize RecvInv where
  keeps c x r hc hx hf hr := by
    obtain ⟨out, hout, hinv, -⟩ := readRequestHandler_spec self hc hx hf
    simp only [readChunk, hout, Option.map_some, Option.some.injEq] at hr
    exact hr ▸ hinv
  cut c x y hc hx hy hf := by
    rcases hc with ⟨k, h⟩ | ⟨m, k, h⟩
    · exact h.cut self hx hy hf
    · exact h.cut self hx hy hf

/-! ## The code's state stands for the unfinished tail -/

/-- The buffer handed to the thread pool for the package `p`: the connection, its sequence number,
and exactly the bytes of `p`. -/
def emit (self : ConnId) (seq : Nat) (p : Bytes) : RecvMem where
  hdr := { pconn := self, curSeq := seq }
  pkg := p.map some

/-- The connection `c` has received the unfinished tail `t`. -/
inductive Sim (self : ConnId) (seq : Nat) (t : Bytes) (c : Conn) : Prop where
  | hdr (at' : HdrAt c t.length) (short : t.length < 8) (buf : c.hdrBuf.bytes.take t.length = t)
      (curSeq : c.curSeq = seq)
  | body (at' : BodyAt c ⟨⟨self, seq⟩, t.map some ++ List.replicate (pkgSize t - t.length) none⟩
        t.length) (lo : 8 ≤ t.length) (lt : t.length < pkgSize t) (hi : pkgSize t ≤ 29000)
      (curSeq : c.curSeq = seq)

theorem Conn.Fresh.sim {c : Conn} (h : c.Fresh) (self : ConnId) : Sim self c.curSeq [] c :=
  .hdr h.hdrAt (by decide) rfl rfl

theorem Sim.inv {self : ConnId} {seq : Nat} {t : Bytes} {c : Conn} (h : Sim self seq t c) :
    RecvInv c := by
  cases h with
  | hdr at' _ _ _ => exact .inl ⟨_, at'⟩
  | body at' _ _ _ _ => exact .inr ⟨_, _, at'⟩

/-- A tail the code can be in the middle of is one the reference has not finished. -/
theorem Sim.unfinished {self : ConnId} {seq : Nat} {t : Bytes} {c : Conn} (h : Sim self seq t c) :
    parse t = ([], t) := by
  cases h with
  | hdr _ hshort _ _ => exact parse_short hshort
  | body _ hlo hlt hhi _ => exact parse_partial hlo (by omega) hlt

/-- Storing one more byte at the end of what is there. -/
theorem overwrite_snoc {α : Type} {l t : List α} {b : α} (h : t.length < l.length)
    (ht : l.take t.length = t) : (overwrite l t.length [b]).take (t.length + 1) = t ++ [b] := by
  have hlen : (l.take t.length ++ [b]).length = t.length + 1 := by
    simp only [List.length_append, List.length_take, List.length_singleton]; omega
  rw [overwrite, ← hlen, List.take_left, ht]

theorem overwrite_pad {α : Type} (t : List α) (b e : α) {n : Nat} (h : t.length < n) :
    overwrite (t ++ List.replicate (n - t.length) e) t.length [b] =
      (t ++ [b]) ++ List.replicate (n - (t.length + 1)) e := by
  have hn : n - t.length = (n - (t.length + 1)) + 1 := by omega
  rw [overwrite, List.take_left, List.length_singleton, ← List.drop_drop, List.drop_left, hn,
    List.replicate_succ, List.drop_one, List.tail_cons]

/-- The eighth byte completes the header. -/
theorem sim_header_done {self : ConnId} {seq : Nat} {t : Bytes} {c : Conn} {b : UInt8}
    (h : HdrAt c t.length) (hlen : t.length + 1 = 8) (hbuf : c.hdrBuf.bytes.take t.length = t)
    (hseq : c.curSeq = seq) :
    ∃ c', readChunk self c [b] = some (c', (parse (t ++ [b])).1.map (emit self seq)) ∧
      Sim self seq (parse (t ++ [b])).2 c' := by
  have hrest := h.rest
  have hrest1 : c.restRecvSize = 1 := by unfold pkgHdrSize at hrest; omega
  obtain ⟨u, hu, hub⟩ := h.write (x := [b]) (by rw [List.length_singleton]; omega)
  have hread := h.read self (by simp) hu
  rw [List.length_singleton, if_pos hrest1.symm] at hread
  have hsize : c.hdrBuf.bytes.length = 20 := c.hdrBuf.size
  have htake : u.bytes.take 8 = t ++ [b] := by
    rw [hub, ← hlen]
    exact overwrite_snoc (by omega) hbuf
  have hpkg : pkgSize (c.withHdrBuf u).hdrBuf.bytes = pkgSize (t ++ [b]) := by
    rw [← htake, pkgSize_take (by decide)]; rfl
  have h8 : (t ++ [b]).length = 8 := by simp only [List.length_append, List.length_singleton, hlen]
  have hnew : ∀ n, newRecvMem self (c.withHdrBuf u) n =
      ⟨⟨self, seq⟩, (t ++ [b]).map some ++ List.replicate (n - (t ++ [b]).length) none⟩ := by
    intro n
    rw [h8]
    simp only [newRecvMem, Conn.withHdrBuf_hdrBuf, pkgHdrSize, htake, RecvMem.mk.injEq, and_true,
      MsgHdr.mk.injEq, true_and]
    exact hseq
  by_cases hbad : pkgSize (t ++ [b]) < 8 ∨ 29000 < pkgSize (t ++ [b])
  · have hv1 := v1_reject self (c := c.withHdrBuf u) h.mem (by rw [hpkg]; exact hbad)
    have hparse : parse (t ++ [b]) = ([], []) := by
      rw [parse_reject (by omega) hbad, List.drop_eq_nil_of_le (by omega), parse_short (by simp)]
    simp only [readChunk, hread, hv1, hparse, Option.map_some, List.map_nil]
    exact ⟨_, rfl, .hdr (resetRecv_fresh _).hdrAt (by decide) rfl hseq⟩
  · by_cases heq : pkgSize (t ++ [b]) = 8
    · have hv1 := v1_header_only self (c := c.withHdrBuf u) (by rw [hpkg]; exact heq)
      have hparse : parse (t ++ [b]) = ([t ++ [b]], []) := by
        rw [parse_package (by omega) hbad (by omega), heq, List.drop_eq_nil_of_le (by omega),
          parse_short (by simp), List.take_of_length_le (by omega)]
      have hmem : newRecvMem self (c.withHdrBuf u) pkgHdrSize = emit self seq (t ++ [b]) := by
        rw [hnew, h8]; simp only [pkgHdrSize, Nat.sub_self, List.replicate_zero, List.append_nil, emit]
      simp only [readChunk, hread, hv1, hparse, hmem, Option.map_some, List.map_cons, List.map_nil]
      exact ⟨_, rfl, .hdr (resetRecv_fresh (c.withHdrBuf u)).hdrAt (by decide) rfl hseq⟩
    · have hv1 := v1_body self (c := c.withHdrBuf u)
        (by rw [hpkg]; unfold pkgHdrSize; omega) (by rw [hpkg]; unfold pkgMaxSize; omega)
      rw [hpkg] at hv1
      simp only [readChunk, hread, hv1, parse_partial (x := t ++ [b]) (by omega) hbad (by omega),
        Option.map_some, List.map_nil]
      refine ⟨_, rfl, .body ?_ (by omega) (by omega) (by omega) hseq⟩
      rw [← hnew, h8]
      exact startBody_bodyAt (by unfold pkgHdrSize; omega) (by unfold pkgMaxSize; omega)

/-- **One byte.** The packages the code hands on are those the reference completes, and the state
stands for the reference's new tail. -/
theorem sim_byte {self : ConnId} {seq : Nat} {t : Bytes} {c : Conn} (h : Sim self seq t c)
    (b : UInt8) :
    ∃ c', readChunk self c [b] = some (c', (parse (t ++ [b])).1.map (emit self seq)) ∧
      Sim self seq (parse (t ++ [b])).2 c' := by
  have hlen : (t ++ [b]).length = t.length + 1 := by simp
  cases h with
  | hdr h hshort hbuf hseq =>
    by_cases h8 : t.length + 1 = 8
    · exact sim_header_done h h8 hbuf hseq
    · -- the header is still incomplete
      have hrest := h.rest
      have hlt : [b].length < c.restRecvSize := by
        rw [List.length_singleton]; unfold pkgHdrSize at hrest; omega
      obtain ⟨u, hu, hub⟩ := h.write (x := [b]) (Nat.le_of_lt hlt)
      have hread := h.read self (by simp) hu
      rw [if_neg (by omega)] at hread
      have hsize : c.hdrBuf.bytes.length = 20 := c.hdrBuf.size
      simp only [readChunk, hread, parse_short (x := t ++ [b]) (by omega), Option.map_some,
        List.map_nil]
      refine ⟨_, rfl, .hdr ?_ (by omega) ?_ hseq⟩
      · rw [hlen]; exact h.short (by simp) hlt
      · rw [hlen]
        exact (congrArg (List.take _) hub).trans (overwrite_snoc (by omega) hbuf)
  | body h hlo hlt hhi hseq =>
    have hrest := h.rest
    simp only [List.length_append, List.length_map, List.length_replicate] at hrest
    have hp : pkgSize (t ++ [b]) = pkgSize t := pkgSize_append (by omega)
    have hok : ¬ (pkgSize (t ++ [b]) < 8 ∨ 29000 < pkgSize (t ++ [b])) := by omega
    have hread := h.read self (x := [b]) (by simp) (by rw [List.length_singleton]; exact h.room)
    have hpad : overwrite (t.map some ++ List.replicate (pkgSize t - t.length) none) t.length
        ([b].map some) = (t ++ [b]).map some ++
          List.replicate (pkgSize (t ++ [b]) - (t ++ [b]).length) none := by
      have := overwrite_pad (t.map some) (some b) none (n := pkgSize t)
        (by rw [List.length_map]; exact hlt)
      rw [List.length_map] at this
      rw [hp, hlen, List.map_append]
      exact this
    by_cases hfull : 1 = c.restRecvSize
    · -- the last byte of the package
      have hn : pkgSize (t ++ [b]) = (t ++ [b]).length := by omega
      simp only [List.length_singleton, hfull.symm, if_true] at hread
      rw [readRequestHandlerProcessV2_some rfl, hpad, hn, Nat.sub_self, List.replicate_zero,
        List.append_nil] at hread
      have hparse : parse (t ++ [b]) = ([t ++ [b]], []) := by
        rw [parse_package (by omega) hok (by omega), hn, List.drop_length, List.take_length,
          parse_short (by simp)]
      simp only [readChunk, hread, hparse, Option.map_some, List.map_cons, List.map_nil]
      exact ⟨_, rfl, .hdr (resetRecv_fresh _).hdrAt (by decide) rfl hseq⟩
    · have hlt' : 1 < c.restRecvSize := by have := h.room; omega
      have hshort := h.short (x := [b]) (by simp) hlt'
      simp only [List.length_singleton, hfull, if_false] at hread
      simp only [hpad] at hread hshort
      simp only [readChunk, hread, parse_partial (x := t ++ [b]) (by omega) hok (by omega),
        Option.map_some, List.map_nil]
      refine ⟨_, rfl, .body ?_ (by omega) (by omega) (by omega) hseq⟩
      rw [hlen] at hshort ⊢
      exact hshort

/-- Bytes one at a time. -/
theorem sim_singles {self : ConnId} {seq : Nat} : ∀ (x t : Bytes) (c : Conn), Sim self seq t c →
    ∃ c', feed (readChunk self) c (singles x) =
        some (c', (parse (t ++ x)).1.map (emit self seq)) ∧ Sim self seq (parse (t ++ x)).2 c'
  | [], t, c, h => by
    have ht : parse t = ([], t) := h.unfinished
    rw [List.append_nil, ht]
    exact ⟨c, rfl, h⟩
  | b :: x, t, c, h => by
    obtain ⟨c₁, hb, h₁⟩ := sim_byte h b
    obtain ⟨c₂, hx, h₂⟩ := sim_singles x (parse (t ++ [b])).2 c₁ h₁
    have hcat : t ++ b :: x = (t ++ [b]) ++ x := by simp
    rw [hcat, parse_append (t ++ [b]) x]
    refine ⟨c₂, ?_, h₂⟩
    simp only [singles, List.map_cons, feed, hb, Option.bind_some]
    simp only [singles] at hx
    rw [hx, Option.map_some, List.map_append]

/-! ## Runs of the read handler -/

/-- Successive calls of the read handler of one connection, one `recv` each: the connection at the
end and the buffers handed to the thread pool, in order. -/
def readRun (self : ConnId) : Conn → List RecvRet → Option (Conn × List RecvMem)
  | c, [] => some (c, [])
  | c, r :: rs => (readRequestHandler self c r).bind
      (fun out => (readRun self out.conn rs).map (fun t => (t.1, out.msgs ++ t.2)))

/-- What the kernel may answer while the connection lasts: it would block, it was interrupted, or
it stored from 1 to `rest_recv_size` bytes. -/
def Arrivals (self : ConnId) : Conn → List RecvRet → Prop
  | _, [] => True
  | c, r :: rs =>
    (r = .fail .eagain ∨ r = .fail .eintr ∨
      (0 < r.stored.length ∧ r.stored.length ≤ c.restRecvSize)) ∧
    ∀ out ∈ readRequestHandler self c r, Arrivals self out.conn rs

instance Arrivals.decidable (self : ConnId) : ∀ (c : Conn) (rs : List RecvRet),
    Decidable (Arrivals self c rs)
  | _, [] => .isTrue trivial
  | c, r :: rs =>
    have := fun out : ReadOut => Arrivals.decidable self out.conn rs
    inferInstanceAs (Decidable (_ ∧ ∀ out ∈ readRequestHandler self c r, _))

/-- The bytes a run consumes. -/
def consumed (rs : List RecvRet) : Bytes := (rs.map RecvRet.stored).flatten

/-- The nonempty reads of a run. -/
def reads (rs : List RecvRet) : List Bytes := (rs.map RecvRet.stored).filter (fun x => !x.isEmpty)

theorem reads_flatten (rs : List RecvRet) : (reads rs).flatten = consumed rs := by
  induction rs with
  | nil => rfl
  | cons r rs ih =>
    simp only [reads, consumed, List.map_cons, List.filter_cons, List.flatten_cons] at ih ⊢
    cases hx : r.stored with
    | nil => simpa using ih
    | cons b x => simpa using ih

/-- A would-block or an interrupt changes nothing, so a run is its nonempty reads. -/
theorem readRun_eq_feed (self : ConnId) : ∀ (rs : List RecvRet) (c : Conn), Arrivals self c rs →
    readRun self c rs = feed (readChunk self) c (reads rs) ∧
      Fits (readChunk self) Conn.restRecvSize c (reads rs)
  | [], _, _ => ⟨rfl, trivial⟩
  | .fail e :: rs, c, h => by
    obtain ⟨hr, hrest⟩ := h
    have hfail := readRequestHandler_fail self c e
    obtain ⟨hrun, hfits⟩ := readRun_eq_feed self rs c (hrest _ hfail)
    refine ⟨?_, hfits⟩
    simp only [readRun, hfail, Option.bind_some, hrun, List.nil_append]
    cases hf : feed (readChunk self) c (reads rs) <;> simp [reads, RecvRet.stored] at hf ⊢ <;> rw [hf]
  | .got x :: rs, c, h => by
    obtain ⟨hr, hrest⟩ := h
    have hx : 0 < x.length ∧ x.length ≤ c.restRecvSize := by
      simpa [RecvRet.stored] using hr
    have hreads : reads (.got x :: rs) = x :: reads rs := by
      simp only [reads, List.map_cons, RecvRet.stored]
      rw [List.filter_cons_of_pos]
      simpa [List.length_pos_iff] using hx.1
    rw [hreads]
    refine ⟨?_, hx.1, hx.2, fun r hr => ?_⟩
    · simp only [readRun, feed, readChunk]
      cases hout : readRequestHandler self c (.got x) with
      | none => rfl
      | some out =>
        simp only [Option.bind_some, Option.map_some, (readRun_eq_feed self rs out.conn
          (hrest out hout)).1]
    · simp only [readChunk, Option.map_eq_some_iff] at hr
      obtain ⟨out, hout, rfl⟩ := hr
      exact (readRun_eq_feed self rs out.conn (hrest out hout)).2

/-- **TCP framing.** From the state `get_one_to_use` leaves, whatever the kernel answers: the run
stores only inside its buffers, the buffers it hands on are the packages the reference finds in the
bytes consumed, every byte of them initialized; another run that consumes the same bytes ends in
the same state with the same buffers; and well-formed packages come out as exactly these. -/
theorem tcp_framing (self : ConnId) (c : Conn) (rs : List RecvRet) (hc : c.Fresh)
    (hrs : Arrivals self c rs) :
    ∃ c', readRun self c rs = some (c', (parse (consumed rs)).1.map (emit self c.curSeq)) ∧
      (∀ rs', Arrivals self c rs' → consumed rs' = consumed rs →
        readRun self c rs' = readRun self c rs) ∧
      ∀ ps : List Bytes, (∀ p ∈ ps, WellFormed p) → consumed rs = ps.flatten →
        readRun self c rs = some (c', ps.map (emit self c.curSeq)) := by
  have hinv : RecvInv c := (hc.sim self).inv
  obtain ⟨hrun, hfits⟩ := readRun_eq_feed self rs c hrs
  obtain ⟨c', hfeed, -⟩ := sim_singles (consumed rs) [] c (hc.sim self)
  have hend : readRun self c rs =
      some (c', (parse (consumed rs)).1.map (emit self c.curSeq)) := by
    rw [hrun, feed_flatten (readChunk_splits self) _ c hinv hfits, reads_flatten]
    exact hfeed
  refine ⟨c', hend, fun rs' hrs' heq => ?_, fun ps hps heq => ?_⟩
  · obtain ⟨hrun', hfits'⟩ := readRun_eq_feed self rs' c hrs'
    rw [hrun', hrun]
    exact feed_eq_of_flatten (readChunk_splits self) hinv hfits' hfits
      (by rw [reads_flatten, reads_flatten, heq])
  · rw [hend, heq, parse_packages ps hps]

/-- A package of 10 bytes that arrives as 3, a would-block, 5 and 2. -/
theorem tcp_framing_cut :
    let rs := [RecvRet.got [10, 0, 1], .fail .eagain, .got [0, 0, 0, 0, 0], .got [7, 9]]
    ∃ c', readRun 3 (Conn.new.getOneToUse 0) rs =
      some (c', [emit 3 1 [10, 0, 1, 0, 0, 0, 0, 0, 7, 9]]) := by
  intro rs
  obtain ⟨c', -, -, hps⟩ := tcp_framing 3 (Conn.new.getOneToUse 0) rs
    (Conn.getOneToUse_fresh _ _) (by decide)
  refine ⟨c', hps [[10, 0, 1, 0, 0, 0, 0, 0, 7, 9]] ?_ rfl⟩
  intro p hp
  obtain rfl := List.mem_singleton.mp hp
  exact ⟨rfl, by decide, by decide⟩

end Mgx
