import Mgx.LogReport
import Mgx.Logic

/-
  What the handlers read of a package.

  `register_handler` and `login_handler` begin with a line for the log in which the
  body of the package is the argument of a `%s`. The dispatcher passes a null
  pointer for a package without body; behind a body the allocation ends, which
  `read_request_handler_process_v1` has made as long as the package. In debug mode
  the line, and with it the body, is a format of its own on its way to stderr.

  Correspondence (C++ ↔ Lean):
    `"register_handler called succeed, msg: %s"` and
      its like (bussiness/mgx_logic_socket.cpp)         ↔ `PkgHandler.greeting`, `strFormat`
    `mgx_log(MGX_LOG_DEBUG, .., pkg_body)` in them      ↔ `HandlerCall.debugLine`

  The memory that may be read is the body, and nothing for a null pointer: the
  call reads no more exactly when its result is not `none`.

  What is proved: `handler_reads_body_iff`. Every read is inside the body exactly
  when the line is not logged, or there is a body with a NUL byte in it, or one that
  is longer than what is left of the line, and the line takes no argument where it
  is formatted again.
-/
namespace Mgx
open Bounded

/-- What the line of the handler says before the body; `ping_handler` does not print its body. -/
def PkgHandler.greeting : PkgHandler → Option Bytes
  | .ping => none
  | .register => some (ascii "register_handler called succeed, msg: ")
  | .login => some (ascii "login_handler called succeed, msg: ")

/-- The line a handler has logged. -/
def HandlerCall.debugLine (call : HandlerCall) (x : LogCtx) (greeting : Bytes) : Option LogOut :=
  x.mgxLog logDebug (strFormat greeting) [.str (call.pkgBody.getD [])]

/-- The body of a package. -/
def LogicMsg.body (m : LogicMsg) : Bytes :=
  (m.pkg.drop pkgHdrSize).take (pkgSize m.pkg - pkgHdrSize)

/-- The line of a handler with this body can be logged: it is not, or the body ends in time and what
of it is in the line takes no argument. -/
def LogCtx.Logs (x : LogCtx) (greeting body : Bytes) : Prop :=
  x.log.logLevel < logDebug ∨
    ((0 ∈ body ∨ x.strRoom debugTag greeting < body.length) ∧
      x.TakesNone logDebug debugTag (greeting ++ body.takeWhile (· ≠ 0)))

/-! ## The handlers -/

theorem PkgHandler.greeting_spec {handler : PkgHandler} {greeting : Bytes}
    (h : handler.greeting = some greeting) :
    0 ∉ greeting ∧ ch '%' ∉ greeting ∧ greeting.length ≤ 64 := by
  cases handler with
  | ping => cases h
  | register =>
    obtain rfl := Option.some.inj h
    decide
  | login =>
    obtain rfl := Option.some.inj h
    decide

theorem HandlerCall.debugLine_isSome_iff {call : HandlerCall} {greeting : Bytes}
    (h : call.handler.greeting = some greeting) (x : LogCtx) :
    (call.debugLine x greeting).isSome ↔ x.Logs greeting (call.pkgBody.getD []) := by
  obtain ⟨hnul, hpercent, hshort⟩ := PkgHandler.greeting_spec h
  exact LogCtx.mgxLog_str_isSome_iff logTag_debug hnul hpercent hshort _

/-- The handler is given the body, or a null pointer when that is empty. -/
theorem thMsgProcessFunc_pkgBody {conn : ConnId → Conn} {m : LogicMsg} {call : HandlerCall}
    (h : thMsgProcessFunc conn m = some (some call)) : call.pkgBody.getD [] = m.body := by
  have hbody : (if pkgSize m.pkg = pkgHdrSize then none else some m.body).getD [] = m.body := by
    split
    next hsize =>
      rw [LogicMsg.body, hsize, Nat.sub_self, List.take_zero]
      rfl
    next => rfl
  unfold thMsgProcessFunc at h
  simp only at h
  split at h
  · cases h
  split at h
  · cases h
  unfold LogicMsg.body at hbody ⊢
  generalize (if pkgSize m.pkg = pkgHdrSize then none
    else some ((m.pkg.drop pkgHdrSize).take (pkgSize m.pkg - pkgHdrSize))) = pkgBody at h hbody
  split at h
  · cases h
  split at h
  · cases h
  split at h
  · cases h
  · cases h
  · obtain rfl := Option.some.inj (Option.some.inj h)
    exact hbody

/-- **When a handler reads only its package.** For every package the dispatcher passes to
`register_handler` or `login_handler`: the line for the log is made without a read outside the body
exactly when debug lines are not logged, or the body has a NUL byte or is longer than what is left of
the line for it, and, where the line goes to stderr as well, no directive in it takes an argument. A
package without body has neither a NUL byte nor a length. -/
theorem handler_reads_body_iff (conn : ConnId → Conn) (m : LogicMsg) (call : HandlerCall)
    (hcall : thMsgProcessFunc conn m = some (some call)) (greeting : Bytes)
    (hhandler : call.handler.greeting = some greeting) (x : LogCtx) :
    (call.debugLine x greeting).isSome ↔
      x.log.logLevel < logDebug ∨
        ((0 ∈ m.body ∨ x.strRoom debugTag greeting < m.body.length) ∧
          x.TakesNone logDebug debugTag (greeting ++ m.body.takeWhile (· ≠ 0))) := by
  rw [HandlerCall.debugLine_isSome_iff hhandler x, thMsgProcessFunc_pkgBody hcall]
  exact Iff.rfl

/-- A LOGIN package whose body is `abc` and a NUL, with the log as it is shipped. -/
theorem handler_reads_body_iff_login : ∃ call, thMsgProcessFunc (fun _ => Conn.new)
      ⟨⟨0, 0⟩, [12, 0, 2, 0, 0xaf, 0x97, 0xa2, 0x58, 97, 98, 99, 0]⟩ = some (some call) ∧
    (call.debugLine debugLog.ctx (ascii "login_handler called succeed, msg: ")).isSome := by
  have hcall : thMsgProcessFunc (fun _ => Conn.new)
      ⟨⟨0, 0⟩, [12, 0, 2, 0, 0xaf, 0x97, 0xa2, 0x58, 97, 98, 99, 0]⟩ =
        some (some ⟨.login, ⟨0, 0⟩, some [97, 98, 99, 0], 4⟩) :=
    thMsgProcessFunc_of_crc (by decide) (by decide) rfl (by decide +kernel) rfl rfl
  refine ⟨_, hcall, (handler_reads_body_iff _ _ _ hcall _ rfl _).mpr (.inr ⟨.inl ?_, ?_⟩)⟩
  · decide +kernel
  · exact LogCtx.takesNone_of_plain logTag_debug (by decide +kernel)

/-- The header of a LOGIN package whose body is `%s` and a NUL. -/
def percentHead : Bytes := [11, 0, 2, 0, 0xd3, 0x88, 0x2a, 0x3a]

/-- A LOGIN package whose body is `abc` alone, a REGISTER package without a body, and a LOGIN package
whose body is `%s` and a NUL. All are accepted; the line is made from behind the body, from a null
pointer, and from a pointer that was never passed. -/
theorem handler_reads_past_body : ∃ login register percent,
    thMsgProcessFunc (fun _ => Conn.new) ⟨⟨0, 0⟩, loginHead ++ [97, 98, 99]⟩ =
        some (some login) ∧ login.pkgBody = some [97, 98, 99] ∧
      login.debugLine debugLog.ctx (ascii "login_handler called succeed, msg: ") = none ∧
    thMsgProcessFunc (fun _ => Conn.new) ⟨⟨0, 0⟩, [8, 0, 1, 0, 0, 0, 0, 0]⟩ =
        some (some register) ∧ register.pkgBody = none ∧
      register.debugLine debugLog.ctx (ascii "register_handler called succeed, msg: ") = none ∧
    thMsgProcessFunc (fun _ => Conn.new) ⟨⟨0, 0⟩, percentHead ++ [37, 115, 0]⟩ =
        some (some percent) ∧ percent.pkgBody = some [37, 115, 0] ∧
      percent.debugLine debugLog.ctx (ascii "login_handler called succeed, msg: ") = none := by
  refine ⟨⟨.login, ⟨0, 0⟩, some [97, 98, 99], 3⟩, ⟨.register, ⟨0, 0⟩, none, 0⟩,
    ⟨.login, ⟨0, 0⟩, some [37, 115, 0], 3⟩, ?_, rfl, ?_, ?_, rfl, ?_, ?_, rfl, ?_⟩
  · exact thMsgProcessFunc_of_crc (by decide) (by decide) rfl (by decide +kernel) rfl rfl
  · decide +kernel
  · decide
  · decide +kernel
  · exact thMsgProcessFunc_of_crc (by decide) (by decide) rfl (by decide +kernel) rfl rfl
  · rw [← Option.not_isSome_iff_eq_none, HandlerCall.debugLine_isSome_iff rfl]
    intro hlogs
    obtain hlevel | ⟨-, htakes⟩ := hlogs
    · exact absurd hlevel (by decide)
    -- the line ends in the body
    have hline : ∃ pre, debugLog.ctx.line debugTag (ascii "login_handler called succeed, msg: " ++
        [ch '%', ch 's']) = pre ++ [ch '%', ch 's'] ∧ 0 ∉ pre ∧ ch '%' ∉ pre ∧ pre.length < 10235 :=
      ⟨newYear ++ logHead debugTag 7 ++ ascii "login_handler called succeed, msg: ", by
        decide +kernel⟩
    obtain ⟨pre, heq, hnul, hpercent, hlen⟩ := hline
    have hbody : ([37, 115, 0] : Bytes).takeWhile (· ≠ 0) = [ch '%', ch 's'] := by decide
    have hnone := htakes ⟨.inr rfl, rfl⟩
    rw [Option.getD_some, hbody, heq, lineMem, List.append_assoc] at hnone
    exact not_takesNoArg_str hnul hpercent _ hlen hnone

end Mgx
