import Mathlib
import Mgx.Lib.CrcPeriod
import Mgx.Logic

/-
  Two flipped bits.

  The CRC of a body tells it from every body that differs in one bit or in two,
  however far apart: the polynomial of the table is primitive, so that a turn of
  the register has the greatest period there is, and no package is long enough
  for two bits to be a period apart.

  Correspondence (C++ ↔ Lean):
    `init_crc32_table`, `get_crc32`
      (misc/mgx_crc32.cpp)                  ↔ `crc32Poly`, `getCrc32`
    `Mgx_logic_socket::th_msg_process_func`
      (bussiness/mgx_logic_socket.cpp)      ↔ `thMsgProcessFunc`

  What is proved: `crc_eq_iff_of_two`, which pairs of flipped bits leave the CRC
  as it is; `two_bits_discarded`, a package with one or two flipped bits in its
  body reaches no handler.
-/
namespace Mgx
open Function

theorem crc32_msb : crc32Poly.msb = true := by decide

/-- The turns of the constant one, by squaring. -/
theorem crc32_isPeriodicPt_iff {n : Nat} (hn : n < 2 ^ 32) :
    IsPeriodicPt (Crc.shift crc32Poly) n Crc.one ↔ Crc.power crc32Poly 32 n = Crc.one := by
  rw [Crc.isPeriodicPt_one_iff, Crc.power_eq 32 n hn]

theorem prime_dvd_period {p : Nat} (hp : p.Prime) (h : p ∣ 2 ^ 32 - 1) :
    p ∈ [3, 5, 17, 257, 65537] := by
  have hfactors : 2 ^ 32 - 1 = 3 * 5 * 17 * 257 * 65537 := by norm_num
  have hprimes : ∀ q ∈ [3, 5, 17, 257, 65537], q.Prime := by
    intro q hq
    simp only [List.mem_cons, List.not_mem_nil, or_false] at hq
    rcases hq with rfl | rfl | rfl | rfl | rfl <;> norm_num
  have hone : ∀ q ∈ [3, 5, 17, 257, 65537], p ∣ q → p ∈ [3, 5, 17, 257, 65537] := by
    intro q hq hdvd
    rw [(Nat.prime_dvd_prime_iff_eq hp (hprimes q hq)).mp hdvd]
    exact hq
  rw [hfactors, hp.dvd_mul, hp.dvd_mul, hp.dvd_mul, hp.dvd_mul] at h
  rcases h with (((h | h) | h) | h) | h
  · exact hone 3 (by simp) h
  · exact hone 5 (by simp) h
  · exact hone 17 (by simp) h
  · exact hone 257 (by simp) h
  · exact hone 65537 (by simp) h

/-- The polynomial is primitive: the turns bring the constant one back after `2 ^ 32 - 1`, and not
before. -/
theorem crc32_period : minimalPeriod (Crc.shift crc32Poly) Crc.one = 2 ^ 32 - 1 := by
  apply Crc.minimalPeriod_eq
  · rw [crc32_isPeriodicPt_iff (by norm_num)]
    decide +kernel
  · intro p hp hdvd
    have hlt : (2 ^ 32 - 1) / p < 2 ^ 32 := lt_of_le_of_lt (Nat.div_le_self _ p) (by norm_num)
    rw [crc32_isPeriodicPt_iff hlt]
    have hmem := prime_dvd_period hp hdvd
    have hall : ∀ q ∈ [3, 5, 17, 257, 65537], Crc.power crc32Poly 32 ((2 ^ 32 - 1) / q) ≠ Crc.one := by
      decide +kernel
    exact hall p hmem

/-! ## Bodies -/

/-- **Two flipped bits.** The CRC of a body, from any value on, stays as it is when the bits `i` and
`j` are flipped exactly if the period divides their distance. -/
theorem crc_eq_iff_of_two {body body' : Bytes} (hlen : body'.length = body.length) {i j : Nat}
    (hij : i < j) (hdiff : ∀ n, (bodyBits body')[n]? ≠ (bodyBits body)[n]? ↔ n = i ∨ n = j)
    (crc : UInt32) : getCrc32 body' crc = getCrc32 body crc ↔ 2 ^ 32 - 1 ∣ j - i := by
  have hbits : (bodyBits body').length = (bodyBits body).length := by
    rw [length_bodyBits, length_bodyBits, hlen]
  obtain ⟨before, x, between, y, after, hxs, hys, hdist⟩ := Crc.split_at_two hbits hij hdiff
  rw [← UInt32.toBitVec_inj, getCrc32_toBitVec, getCrc32_toBitVec, hxs, hys,
    Crc.feed_eq_iff_of_two crc32_msb, crc32_period, hdist]

/-- Bodies of packages that differ in one bit or in two have different CRCs. -/
theorem getCrc32_ne_of_two {body body' : Bytes} (hlen : body'.length = body.length)
    (hne : body' ≠ body) (hsize : body.length < 2 ^ 16) {i j : Nat}
    (hdiff : ∀ n, (bodyBits body')[n]? ≠ (bodyBits body)[n]? → n = i ∨ n = j) (crc : UInt32) :
    getCrc32 body' crc ≠ getCrc32 body crc := by
  by_cases hone : ∃ k : Nat, ∀ n : Nat, (bodyBits body')[n]? ≠ (bodyBits body)[n]? → n = k
  · -- one bit is a burst
    obtain ⟨k, hk⟩ := hone
    apply getCrc32_ne_of_burst hlen hne (j := k)
    intro n hn
    have hnk := hk n hn
    omega
  · have hboth : ∀ k l : Nat, (∀ n : Nat, (bodyBits body')[n]? ≠ (bodyBits body)[n]? → n = k ∨ n = l) →
        (bodyBits body')[k]? ≠ (bodyBits body)[k]? := by
      intro k l hkl hsame
      apply hone
      refine ⟨l, fun n hn => ?_⟩
      rcases hkl n hn with h | h
      · exact absurd hsame (h ▸ hn)
      · exact h
    have hi := hboth i j hdiff
    have hj := hboth j i fun n hn => (hdiff n hn).symm
    have hiff : ∀ n : Nat, (bodyBits body')[n]? ≠ (bodyBits body)[n]? ↔ n = i ∨ n = j := by
      intro n
      refine ⟨hdiff n, fun h => ?_⟩
      rcases h with h | h
      · exact h ▸ hi
      · exact h ▸ hj
    have hlt : ∀ n : Nat, (bodyBits body')[n]? ≠ (bodyBits body)[n]? → n < 8 * body.length := by
      intro n hn
      by_contra hout
      have hend : ∀ xs : Bytes, xs.length = body.length → (bodyBits xs)[n]? = none :=
        fun xs hxs => List.getElem?_eq_none (by rw [length_bodyBits, hxs]; omega)
      exact hn ((hend body' hlen).trans (hend body rfl).symm)
    have hilt := hlt i hi
    have hjlt := hlt j hj
    have hnodvd : ∀ d, 0 < d → d < 2 ^ 32 - 1 → ¬ 2 ^ 32 - 1 ∣ d := by
      intro d hpos hd hdvd
      exact absurd (Nat.le_of_dvd hpos hdvd) (by omega)
    rcases Nat.lt_trichotomy i j with hij | hij | hij
    · rw [ne_eq, crc_eq_iff_of_two hlen hij hiff]
      exact hnodvd _ (by omega) (by omega)
    · exact absurd ⟨i, fun n hn => by rcases hdiff n hn with h | h <;> omega⟩ hone
    · rw [ne_eq, crc_eq_iff_of_two hlen hij fun n => (hiff n).trans or_comm]
      exact hnodvd _ (by omega) (by omega)

/-! ## Packages -/

/-- **Two flipped bits reach no handler.** When a package with a body is handled, a package with the
same header and a body that differs from it in one bit or in two, wherever they are, is discarded,
whenever it comes. -/
theorem two_bits_discarded {conn conn' : ConnId → Conn} {hdr hdr' : MsgHdr}
    {head body body' : Bytes} (hhead : head.length = pkgHdrSize)
    (hsize : pkgSize head = pkgHdrSize + body.length) (hbody : body ≠ []) {call : HandlerCall}
    (hcall : thMsgProcessFunc conn ⟨hdr, head ++ body⟩ = some (some call))
    (hlen : body'.length = body.length) (hne : body' ≠ body) {i j : Nat}
    (hdiff : ∀ n, (bodyBits body')[n]? ≠ (bodyBits body)[n]? → n = i ∨ n = j) :
    thMsgProcessFunc conn' ⟨hdr', head ++ body'⟩ = some none := by
  have hfits : body.length < 2 ^ 16 := by
    have hlow := (head.getD 0 0).toNat_lt
    have hhigh := (head.getD 1 0).toNat_lt
    unfold pkgSize at hsize
    omega
  have hcrc := (thMsgProcessFunc_body hhead hsize hbody).2 call hcall
  have hbody' : body' ≠ [] := by
    intro h
    rw [h] at hlen
    exact hbody (List.length_eq_zero_iff.mp hlen.symm)
  apply (thMsgProcessFunc_body hhead (by rw [hsize, hlen]) hbody').1
  rw [← hcrc]
  exact getCrc32_ne_of_two hlen hne hfits hdiff crc32Init

/-- The lowest bits of the first byte and of the third are flipped. -/
theorem two_bits_discarded_login :
    thMsgProcessFunc (fun _ => Conn.new) ⟨⟨0, 0⟩, loginHead ++ [96, 98, 98]⟩ = some none := by
  have hcall : thMsgProcessFunc (fun _ => Conn.new) ⟨⟨0, 0⟩, loginHead ++ [97, 98, 99]⟩ =
      some (some ⟨.login, ⟨0, 0⟩, some [97, 98, 99], 3⟩) :=
    thMsgProcessFunc_of_crc (by decide) (by decide) rfl (by decide +kernel) rfl rfl
  apply two_bits_discarded (i := 0) (j := 16) (by decide) (by decide) (by decide) hcall (by decide)
    (by decide)
  intro n hn
  have hsmall : ∀ k < 24, (bodyBits [96, 98, 98])[k]? ≠ (bodyBits [97, 98, 99])[k]? →
      k = 0 ∨ k = 16 := by decide
  apply hsmall n _ hn
  by_contra hout
  have hend : ∀ xs : Bytes, xs.length = 3 → (bodyBits xs)[n]? = none := fun xs hxs =>
    List.getElem?_eq_none (by rw [length_bodyBits, hxs]; omega)
  exact hn ((hend _ rfl).trans (hend _ rfl).symm)

end Mgx
