import Mgx.Lib.CMem
import Mgx.Lib.Runs
import Mgx.HttpRequest

/-
  The title of a process.

  The title goes where the kernel put the arguments, and on over the environment
  behind them. So the environment is moved away first, and what both had together
  is the room there is.

  Correspondence (C++ ↔ Lean), `app/mgx_setproctitle.cpp`:
    the memory of the process, from address 0 on     ↔ `Proc.mem`
    `g_argv`, `environ`, up to their null pointers   ↔ `Proc.argv`, `Proc.environ`
    `g_env_size`, the static `argv_size`             ↔ `Proc.envSize`, `Proc.argvSize`
    `mgx_move_env`, its second loop                  ↔ `Proc.moveEnv`, `moveLoop`
    `mgx_setproctitle`                               ↔ `Proc.setproctitle`
  and `process/mgx_process_cycle.cpp`:
    `title[1024]`, with `strcat`                     ↔ `Proc.masterTitle`, `strcat`
    the titles of master and workers                 ↔ `Proc.master`, `Proc.worker`

  The block of `new` is at the end of the memory. The sizes are below 2^31. The
  title of the thread (`pthread_setname_np`) is left out. `none` is undefined
  behaviour: `title` is too small, or there is no `argv[0]`.

  What is proved: `titles_shown`. Whatever titles are set one after the other, the
  environment stays, and nothing changes outside the room; the room holds the last
  title that fits. `names_shown`: the command line fits `title` up to 1004 bytes,
  and the master shows its title when the environment takes 20 bytes or more.
-/
namespace Mgx
open CMem Runs

/-! ## Strings in memory -/

/-- The strings one after the other, each with its NUL. -/
def packed (ss : List CStr) : Bytes := ss.flatMap fun s => s.1 ++ [0]

/-- Where each of them starts, from `p` on. -/
def starts (p : Nat) : List CStr → List Nat
  | [] => []
  | s :: ss => p :: starts (p + (s.1.length + 1)) ss

/-- The string is at address `p`. -/
def Holds (mem : Bytes) (p : Nat) (s : CStr) : Prop := ∃ tail, mem.drop p = s.1 ++ 0 :: tail

@[simp] theorem packed_cons (s : CStr) (ss : List CStr) :
    packed (s :: ss) = s.1 ++ 0 :: packed ss := by
  simp [packed]

theorem Holds.cstr_eq {mem : Bytes} {p : Nat} {s : CStr} (h : Holds mem p s) :
    cstr (mem.drop p) = s.1 := by
  obtain ⟨tail, htail⟩ := h
  rw [htail, cstr_append_nul s.2]

theorem Holds.append {mem : Bytes} {p : Nat} {s : CStr} (h : Holds mem p s) (x : Bytes) :
    Holds (mem ++ x) p s := by
  obtain ⟨tail, htail⟩ := h
  have hp : p ≤ mem.length := by
    have hlen := congrArg List.length htail
    simp only [List.length_drop, List.length_append, List.length_cons] at hlen
    omega
  refine ⟨tail ++ x, ?_⟩
  rw [List.drop_append_of_le_length hp, htail]
  simp

/-- Packed strings are found where they start. -/
theorem holds_packed (post : Bytes) : ∀ (pre : Bytes) (ss : List CStr),
    List.Forall₂ (Holds (pre ++ packed ss ++ post)) (starts pre.length ss) ss
  | _, [] => .nil
  | pre, s :: ss => by
    have hhead : Holds (pre ++ packed (s :: ss) ++ post) pre.length s := by
      refine ⟨packed ss ++ post, ?_⟩
      rw [List.append_assoc, List.drop_left, packed_cons]
      simp
    have htail := holds_packed post (pre ++ (s.1 ++ [0])) ss
    have hmem : pre ++ (s.1 ++ [0]) ++ packed ss ++ post = pre ++ packed (s :: ss) ++ post := by
      simp
    have hlen : (pre ++ (s.1 ++ [0])).length = pre.length + (s.1.length + 1) := by simp
    rw [hmem, hlen] at htail
    exact .cons hhead htail

/-- They are as many bytes as the lengths say. -/
theorem length_packed {mem : Bytes} {ps : List Nat} {ss : List CStr}
    (h : List.Forall₂ (Holds mem) ps ss) :
    (ps.map fun p => strlen (mem.drop p) + 1).sum = (packed ss).length := by
  induction h with
  | nil => rfl
  | cons hp _ ih =>
    rw [List.map_cons, List.sum_cons, ih, packed_cons, strlen, hp.cstr_eq]
    simp only [List.length_append, List.length_cons]
    omega

/-- The strings read at the addresses. -/
theorem map_cstr {mem : Bytes} {ps : List Nat} {ss : List CStr}
    (h : List.Forall₂ (Holds mem) ps ss) :
    ps.map (fun p => cstr (mem.drop p)) = ss.map Subtype.val := by
  induction h with
  | nil => rfl
  | cons hp _ ih => rw [List.map_cons, List.map_cons, hp.cstr_eq, ih]

/-! ## The process -/

structure Proc where
  mem : Bytes
  argv : List Nat
  environ : List Nat
  envSize : Nat
  argvSize : Nat
  deriving DecidableEq, Repr

/-- The string a pointer points to. -/
def Proc.str (s : Proc) (p : Nat) : Bytes := cstr (s.mem.drop p)

/-- What the kernel hands to `main`: the arguments, and the environment right behind them. -/
def Proc.start (pre : Bytes) (args env : List CStr) (post : Bytes) : Proc where
  mem := pre ++ packed args ++ packed env ++ post
  argv := starts pre.length args
  environ := starts (pre ++ packed args).length env
  envSize := 0
  argvSize := 0

/-- The second loop of `mgx_move_env`, with `t` for `t_mgx_env`: the memory and the new pointers. -/
def moveLoop (t : Nat) : List Nat → Bytes → Bytes × List Nat
  | [], mem => (mem, [])
  | p :: ps, mem =>
    let copied := overwrite mem t (cstr (mem.drop p) ++ [0])
    let rest := moveLoop (t + (strlen (copied.drop t) + 1)) ps copied
    (rest.1, t :: rest.2)

/-- `mgx_move_env`. -/
def Proc.moveEnv (s : Proc) : Proc :=
  let size := s.envSize + (s.environ.map fun p => strlen (s.mem.drop p) + 1).sum
  let moved := moveLoop s.mem.length s.environ (s.mem ++ List.replicate size 0)
  { s with mem := moved.1, environ := moved.2, envSize := size }

/-- `argv_size`, which is computed in the first call only. -/
def Proc.argSize (s : Proc) : Nat :=
  if s.argvSize = 0 then (s.argv.map fun p => strlen (s.mem.drop p) + 1).sum else s.argvSize

/-- `mgx_setproctitle`. -/
def Proc.setproctitle (s : Proc) (title : CStr) : Option Proc :=
  let argvSize := s.argSize
  let titleSize := title.1.length + 1
  if titleSize > s.envSize + argvSize then some { s with argvSize := argvSize }
  else match s.argv with
    | [] => none
    | p :: _ =>
      let titled := overwrite s.mem p (title.1 ++ [0])
      some { s with
        mem := overwrite titled (p + titleSize)
          (List.replicate (s.envSize + argvSize - titleSize) 0)
        argv := [p], argvSize := argvSize }

/-! ## The environment is moved -/

/-- What was there, with the strings copied behind it. -/
theorem moveLoop_eq {low : Bytes} {ps : List Nat} {ss : List CStr}
    (h : List.Forall₂ (Holds low) ps ss) : ∀ (done : Bytes),
    moveLoop (low ++ done).length ps (low ++ done ++ List.replicate (packed ss).length 0) =
      (low ++ done ++ packed ss, starts (low ++ done).length ss) := by
  induction h with
  | nil =>
    intro done
    simp [moveLoop, packed, starts]
  | @cons p s ps ss hp _ ih =>
    intro done
    have hread : cstr ((low ++ done ++ List.replicate (packed (s :: ss)).length 0).drop p) = s.1 := by
      rw [List.append_assoc]
      exact (hp.append _).cstr_eq
    have hcopied : overwrite (low ++ done ++ List.replicate (packed (s :: ss)).length 0)
        (low ++ done).length (s.1 ++ [0]) =
        low ++ (done ++ (s.1 ++ [0])) ++ List.replicate (packed ss).length 0 := by
      have hroom : (packed (s :: ss)).length - (s.1 ++ [0]).length = (packed ss).length := by
        simp only [packed_cons, List.length_append, List.length_cons, List.length_nil]
        omega
      rw [overwrite, List.take_left, ← List.drop_drop, List.drop_left, List.drop_replicate, hroom]
      simp
    have hlen : strlen ((low ++ (done ++ (s.1 ++ [0])) ++
        List.replicate (packed ss).length 0).drop (low ++ done).length) = s.1.length := by
      have hheld : Holds (low ++ (done ++ (s.1 ++ [0])) ++ List.replicate (packed ss).length 0)
          (low ++ done).length s := by
        refine ⟨List.replicate (packed ss).length 0, ?_⟩
        rw [← List.append_assoc low, List.append_assoc (low ++ done), List.drop_left]
        simp
      rw [strlen, hheld.cstr_eq]
    have hnext : (low ++ done).length + (s.1.length + 1) =
        (low ++ (done ++ (s.1 ++ [0]))).length := by
      simp only [List.length_append, List.length_cons, List.length_nil]
      omega
    simp only [moveLoop, hread, hcopied, hlen]
    rw [hnext, ih (done ++ (s.1 ++ [0])), starts, hnext, packed_cons]
    simp

/-! ## What the room holds -/

/-- The room: the arguments and the environment. -/
def room (args env : List CStr) : Nat := (packed args).length + (packed env).length

/-- The title fits. -/
def Fits (n : Nat) (title : CStr) : Bool := title.1.length + 1 ≤ n

/-- The title, and zeros up to the end of the room. -/
def padded (n : Nat) (title : CStr) : Bytes :=
  title.1 ++ List.replicate (n - title.1.length) 0

/-- The last of the titles that fits. -/
def lastFitting (n : Nat) (titles : List CStr) : Option CStr := (titles.filter (Fits n)).getLast?

/-- The room, after the titles. -/
def shownIn (content : Bytes) (titles : List CStr) : Bytes :=
  match lastFitting content.length titles with
  | none => content
  | some title => padded content.length title

theorem length_padded {n : Nat} {title : CStr} (h : Fits n title = true) :
    (padded n title).length = n := by
  have hle : title.1.length + 1 ≤ n := of_decide_eq_true h
  simp only [padded, List.length_append, List.length_replicate]
  omega

/-- One title after the other. -/
theorem shownIn_cons (content : Bytes) (title : CStr) (titles : List CStr) :
    shownIn content (title :: titles) =
      shownIn (if Fits content.length title then padded content.length title else content)
        titles := by
  unfold shownIn lastFitting
  cases hfits : Fits content.length title with
  | false => simp [hfits]
  | true =>
    rw [if_pos rfl, length_padded hfits, List.filter_cons_of_pos hfits, List.getLast?_cons]
    cases (titles.filter (Fits content.length)).getLast? <;> rfl

/-- The process after some titles: `content` is in the room, the rest is as it was. -/
structure Proc.Titled (pre post : Bytes) (args env : List CStr) (content : Bytes) (s : Proc) :
    Prop where
  mem : s.mem = pre ++ content ++ post ++ packed env
  length : content.length = room args env
  argv : s.argv.head? = some pre.length
  argSize : s.argSize = (packed args).length
  envSize : s.envSize = (packed env).length
  environ : s.environ = starts (pre ++ content ++ post).length env

/-- After the move. -/
theorem Proc.moveEnv_titled (pre post : Bytes) (arg : CStr) (args env : List CStr) :
    Titled pre post (arg :: args) env (packed (arg :: args) ++ packed env)
      (start pre (arg :: args) env post).moveEnv := by
  have henv := holds_packed post (pre ++ packed (arg :: args)) env
  have hsize := length_packed henv
  have hloop := moveLoop_eq henv []
  simp only [List.append_nil] at hloop
  have hmem : (start pre (arg :: args) env post).moveEnv.mem =
      pre ++ (packed (arg :: args) ++ packed env) ++ post ++ packed env := by
    simp only [moveEnv, start, Nat.zero_add, hsize, hloop]
    simp
  refine ⟨hmem, by rw [List.length_append, room], rfl, ?_, ?_, ?_⟩
  · have hargs := holds_packed (packed env ++ post ++ packed env) pre (arg :: args)
    have hsum := length_packed hargs
    have hassoc : pre ++ packed (arg :: args) ++ (packed env ++ post ++ packed env) =
        pre ++ (packed (arg :: args) ++ packed env) ++ post ++ packed env := by simp
    rw [hassoc, ← hmem] at hsum
    exact hsum
  · simp only [moveEnv, start, Nat.zero_add, hsize]
  · simp only [moveEnv, start, Nat.zero_add, hsize, hloop]
    simp

/-- Setting a title. -/
theorem Proc.Titled.setproctitle {pre post : Bytes} {arg : CStr} {args env : List CStr}
    {content : Bytes} {s : Proc} (h : s.Titled pre post (arg :: args) env content) (title : CStr) :
    ∃ s', s.setproctitle title = some s' ∧ s'.Titled pre post (arg :: args) env
      (if Fits content.length title then padded content.length title else content) := by
  have hpos : (packed (arg :: args)).length ≠ 0 := by simp
  have hroom : s.envSize + s.argSize = content.length := by
    rw [h.envSize, h.argSize, h.length, room, Nat.add_comm]
  by_cases hfits : title.1.length + 1 ≤ content.length
  · have hif : Fits content.length title = true := decide_eq_true hfits
    obtain ⟨rest, hargv⟩ := List.head?_eq_some_iff.mp h.argv
    have hset : s.setproctitle title = some { s with
        mem := overwrite (overwrite s.mem pre.length (title.1 ++ [0]))
          (pre.length + (title.1.length + 1))
          (List.replicate (content.length - (title.1.length + 1)) 0)
        argv := [pre.length], argvSize := s.argSize } := by
      simp only [Proc.setproctitle, hroom]
      rw [if_neg (Nat.not_lt.mpr hfits), hargv]
    rw [if_pos hif]
    refine ⟨_, hset, ?_, ?_, rfl, ?_, h.envSize, ?_⟩
    · -- the title, its NUL and the zeros behind it are one write over the room
      have hpad : title.1 ++ [0] ++ List.replicate (content.length - (title.1.length + 1)) 0 =
          padded content.length title := by
        have hsucc : content.length - title.1.length =
            content.length - (title.1.length + 1) + 1 := by omega
        rw [padded, hsucc, List.replicate_succ, List.append_assoc, List.singleton_append]
      have hlen : (title.1 ++ [0]).length = title.1.length + 1 := by simp
      have hinside : pre.length + (title.1 ++ [0]).length +
          (List.replicate (content.length - (title.1.length + 1)) (0 : UInt8)).length ≤
          s.mem.length := by
        rw [h.mem, hlen, List.length_replicate]
        simp only [List.length_append]
        omega
      have hwrite := overwrite_overwrite hinside
      rw [hlen, hpad] at hwrite
      show overwrite _ _ _ = _
      rw [hwrite, h.mem, overwrite, length_padded hif, List.append_assoc pre,
        List.append_assoc pre, List.take_left, ← List.drop_drop, List.drop_left,
        List.append_assoc content, List.drop_left]
      simp
    · rw [length_padded hif, h.length]
    · show (if s.argSize = 0 then _ else s.argSize) = _
      rw [h.argSize, if_neg hpos]
    · show s.environ = _
      rw [h.environ]
      congr 1
      simp only [List.length_append, length_padded hif]
  · have hif : Fits content.length title = false := decide_eq_false hfits
    have hset : s.setproctitle title = some { s with argvSize := s.argSize } := by
      simp only [Proc.setproctitle, hroom]
      rw [if_pos (Nat.not_le.mp hfits)]
    rw [hif]
    refine ⟨_, hset, h.mem, h.length, h.argv, ?_, h.envSize, h.environ⟩
    show (if s.argSize = 0 then _ else s.argSize) = _
    rw [h.argSize, if_neg hpos]

/-- Setting any titles. -/
theorem Proc.Titled.run {pre post : Bytes} {arg : CStr} {args env : List CStr} :
    ∀ (titles : List CStr) {content : Bytes} {s : Proc},
      s.Titled pre post (arg :: args) env content →
      ∃ s', Runs.run Proc.setproctitle s titles = some s' ∧
        s'.Titled pre post (arg :: args) env (shownIn content titles)
  | [], _, s, h => ⟨s, rfl, h⟩
  | title :: titles, content, s, h => by
    obtain ⟨m, hm, hmid⟩ := h.setproctitle title
    obtain ⟨s', hs', hend⟩ := hmid.run titles
    refine ⟨s', run_cons.mpr ⟨m, hm, hs'⟩, ?_⟩
    rw [shownIn_cons]
    exact hend

/-- The environment is where `environ` points, whatever is in the room. -/
theorem Proc.Titled.environment {pre post : Bytes} {args env : List CStr} {content : Bytes}
    {s : Proc} (h : s.Titled pre post args env content) :
    s.environ.map s.str = env.map Subtype.val := by
  have henv := holds_packed [] (pre ++ content ++ post) env
  rw [List.append_nil, ← h.mem, ← h.environ] at henv
  exact map_cstr henv

/-- What `argv[0]` is read as. -/
theorem Proc.Titled.name {pre post : Bytes} {arg : CStr} {args env titles : List CStr} {s : Proc}
    (h : s.Titled pre post (arg :: args) env
      (shownIn (packed (arg :: args) ++ packed env) titles)) :
    s.argv.head?.map s.str = some ((lastFitting (room (arg :: args) env) titles).getD arg).1 := by
  have hlen : (packed (arg :: args) ++ packed env).length = room (arg :: args) env := by
    rw [List.length_append, room]
  rw [h.argv, Option.map_some, str, h.mem, shownIn, hlen, List.append_assoc, List.append_assoc,
    List.drop_left]
  cases hlast : lastFitting (room (arg :: args) env) titles with
  | none =>
    simp only [packed_cons, List.append_assoc, List.cons_append, Option.getD_none]
    rw [cstr_append_nul arg.2]
  | some title =>
    have hfits : Fits (room (arg :: args) env) title = true := by
      have hmem := List.mem_of_getLast? hlast
      exact (List.mem_filter.mp hmem).2
    have hle : title.1.length + 1 ≤ room (arg :: args) env := of_decide_eq_true hfits
    have hzeros : List.replicate (room (arg :: args) env - title.1.length) (0 : UInt8) =
        0 :: List.replicate (room (arg :: args) env - (title.1.length + 1)) 0 := by
      rw [← List.replicate_succ]
      congr 1
      omega
    simp only [padded, hzeros, List.append_assoc, List.cons_append, Option.getD_some]
    rw [cstr_append_nul title.2]

/-- **The titles that are shown.** For any arguments and environment and any titles set one after
the other: the environment reads as before, in its block behind everything else; the room where the
arguments and the environment were holds the last title that fits and zeros after it, or is as it
was when none does; no byte outside it changes; and `argv[0]` reads that title. -/
theorem titles_shown (pre post : Bytes) (arg : CStr) (args env titles : List CStr) :
    ∃ s, run Proc.setproctitle (Proc.start pre (arg :: args) env post).moveEnv titles = some s ∧
      s.environ.map s.str = env.map Subtype.val ∧
      s.mem = pre ++ shownIn (packed (arg :: args) ++ packed env) titles ++ post ++ packed env ∧
      s.argv.head?.map s.str =
        some ((lastFitting (room (arg :: args) env) titles).getD arg).1 := by
  obtain ⟨s, hrun, htitled⟩ := (Proc.moveEnv_titled pre post arg args env).run titles
  exact ⟨s, hrun, htitled.environment, htitled.mem, htitled.name⟩

/-! ## The titles of the server -/

/-- `strcat` to an array of `size` bytes. -/
def strcat (size : Nat) (buf s : CStr) : Option CStr :=
  if buf.1.length + s.1.length < size then
    some ⟨buf.1 ++ s.1, fun h => (List.mem_append.mp h).elim buf.2 s.2⟩
  else none

/-- `MASTER_PROCESS_NAME`. -/
def masterProcessName : CStr := ⟨ascii "mgx: master process", by decide⟩

/-- `WORKER_PROCESS_NAME`. -/
def workerProcessName : CStr := ⟨ascii "mgx: worker process", by decide⟩

/-- `sizeof(title)`. -/
def titleBufSize : Nat := 1024

/-- The loop that appends the arguments to `title`. -/
def Proc.titleLoop (s : Proc) (title : CStr) : List Nat → Option CStr
  | [] => some title
  | p :: ps =>
    (strcat titleBufSize title ⟨ascii " ", by decide⟩).bind fun title =>
      (strcat titleBufSize title (.of (s.mem.drop p))).bind fun title => s.titleLoop title ps

/-- `title` in `mgx_process_cycle`. -/
def Proc.masterTitle (s : Proc) : Option CStr := s.titleLoop masterProcessName s.argv

/-- The master, up to the loop that starts the workers. -/
def Proc.master (s : Proc) : Option Proc :=
  s.masterTitle.bind fun title => s.moveEnv.setproctitle title

/-- A worker, which starts as a copy of the master. -/
def Proc.worker (s : Proc) : Option Proc := s.setproctitle workerProcessName

/-- The arguments, each after a space. -/
def commandLine (args : List CStr) : Bytes := args.flatMap fun s => 32 :: s.1

theorem length_commandLine (args : List CStr) :
    (commandLine args).length = (packed args).length := by
  induction args with
  | nil => rfl
  | cons s args ih =>
    rw [packed_cons, commandLine, List.flatMap_cons]
    simp only [List.length_append, List.length_cons]
    rw [commandLine] at ih
    omega

/-- The title is built when it fits the buffer with its NUL. -/
theorem Proc.titleLoop_eq {s : Proc} {ps : List Nat} {ss : List CStr}
    (h : List.Forall₂ (Holds s.mem) ps ss) : ∀ (title : CStr), title.1.length < titleBufSize →
      (s.titleLoop title ps).map Subtype.val =
        if title.1.length + (packed ss).length < titleBufSize then
          some (title.1 ++ commandLine ss) else none := by
  induction h with
  | nil =>
    intro title hroom
    have hroom : title.1.length + (packed []).length < titleBufSize := hroom
    rw [titleLoop, if_pos hroom]
    simp [commandLine]
  | @cons p a ps ss hp _ ih =>
    intro title hroom
    have hread : CStr.of (s.mem.drop p) = a := Subtype.ext hp.cstr_eq
    have hspace : (ascii " ").length = 1 := rfl
    have hlen : (packed (a :: ss)).length = a.1.length + ((packed ss).length + 1) := by
      rw [packed_cons, List.length_append, List.length_cons]
    rw [titleLoop, hread, hlen]
    by_cases hfits : title.1.length + 1 + a.1.length < titleBufSize
    · have hfits₁ : title.1.length + (ascii " ").length < titleBufSize := by omega
      have hfits₂ : (title.1 ++ ascii " ").length + a.1.length < titleBufSize := by
        rw [List.length_append, hspace]
        exact hfits
      have hnext : (title.1 ++ ascii " " ++ a.1).length = title.1.length + 1 + a.1.length := by
        rw [List.length_append, List.length_append, hspace]
      have hline : title.1 ++ ascii " " ++ a.1 ++ commandLine ss = title.1 ++ commandLine (a :: ss) := by
        have hascii : ascii " " = [32] := rfl
        rw [hascii, commandLine, commandLine, List.flatMap_cons]
        simp
      rw [strcat, if_pos hfits₁, Option.bind_some, strcat, if_pos hfits₂, Option.bind_some,
        ih _ (by rw [hnext]; exact hfits), hnext, hline]
      congr 1
      apply propext
      omega
    · have htotal : ¬ title.1.length + (a.1.length + ((packed ss).length + 1)) < titleBufSize := by
        omega
      rw [if_neg htotal]
      by_cases hfits₁ : title.1.length + (ascii " ").length < titleBufSize
      · have hfits₂ : ¬ (title.1 ++ ascii " ").length + a.1.length < titleBufSize := by
          rw [List.length_append, hspace]
          exact hfits
        rw [strcat, if_pos hfits₁, Option.bind_some, strcat, if_neg hfits₂]
        rfl
      · rw [strcat, if_neg hfits₁]
        rfl

/-- The title of the master. -/
theorem Proc.masterTitle_eq (pre post : Bytes) (args env : List CStr) :
    (start pre args env post).masterTitle.map Subtype.val =
      if (packed args).length ≤ 1004 then some (masterProcessName.1 ++ commandLine args)
      else none := by
  have hargs := holds_packed (packed env ++ post) pre args
  rw [← List.append_assoc] at hargs
  have hname : masterProcessName.1.length = 19 := rfl
  rw [masterTitle, titleLoop_eq hargs masterProcessName (by decide), hname, titleBufSize]
  congr 1
  apply propext
  omega

/-- **The names of the server.** The command line overflows `title` from 1005 bytes on, NULs included,
and not before. Up to there the environment reads as before in the master and in a worker; the
master shows its name and the command line if the environment takes at least 20 bytes, a worker its
name if arguments and environment do; else they show what the server was called as. -/
theorem names_shown (pre post : Bytes) (arg : CStr) (args env : List CStr) :
    ((Proc.start pre (arg :: args) env post).master.isSome ↔
      (packed (arg :: args)).length ≤ 1004) ∧
    ∀ m, (Proc.start pre (arg :: args) env post).master = some m →
      m.environ.map m.str = env.map Subtype.val ∧
      m.argv.head?.map m.str = some (if 20 ≤ (packed env).length then
        masterProcessName.1 ++ commandLine (arg :: args) else arg.1) ∧
      ∃ w, m.worker = some w ∧ w.environ.map w.str = env.map Subtype.val ∧
        w.argv.head?.map w.str = some (if 20 ≤ room (arg :: args) env then
          workerProcessName.1 else arg.1) := by
  have htitle := Proc.masterTitle_eq pre post (arg :: args) env
  have hstart := Proc.moveEnv_titled pre post arg args env
  by_cases hlen : (packed (arg :: args)).length ≤ 1004
  · rw [if_pos hlen] at htitle
    obtain ⟨title, hmaster, hval⟩ := Option.map_eq_some_iff.mp htitle
    obtain ⟨m, hm, hmid⟩ := hstart.run [title]
    obtain ⟨w, hw, hend⟩ := hstart.run [title, workerProcessName]
    obtain ⟨m', hm', hw⟩ := run_cons.mp hw
    have hset : (Proc.start pre (arg :: args) env post).moveEnv.setproctitle title = some m := by
      obtain ⟨m'', hm'', hnil⟩ := run_cons.mp hm
      rw [hm'']
      exact hnil
    obtain rfl : m' = m := Option.some.inj (hm'.symm.trans hset)
    have hmasterEq : (Proc.start pre (arg :: args) env post).master = some m' := by
      rw [Proc.master, hmaster, Option.bind_some, hset]
    have hworker : m'.worker = some w := by
      obtain ⟨w', hw', hnil⟩ := run_cons.mp hw
      rw [Proc.worker, hw']
      exact hnil
    -- the master's title takes 20 bytes more than the arguments
    have hsize : title.1.length + 1 = (packed (arg :: args)).length + 20 := by
      have hname : masterProcessName.1.length = 19 := rfl
      rw [hval, List.length_append, length_commandLine, hname]
      omega
    have hfitsMaster : Fits (room (arg :: args) env) title = decide (20 ≤ (packed env).length) := by
      rw [Fits, hsize, room]
      congr 1
      apply propext
      omega
    have hfitsWorker : Fits (room (arg :: args) env) workerProcessName =
        decide (20 ≤ room (arg :: args) env) := rfl
    have hroom : room (arg :: args) env = (packed (arg :: args)).length + (packed env).length := rfl
    refine ⟨iff_of_true (by rw [hmasterEq]; rfl) hlen, fun m hm => ?_⟩
    obtain rfl : m' = m := Option.some.inj (hmasterEq.symm.trans hm)
    refine ⟨hmid.environment, ?_, w, hworker, hend.environment, ?_⟩
    · rw [hmid.name, lastFitting]
      by_cases hfits : 20 ≤ (packed env).length
      · simp [hfitsMaster, hfits, hval]
      · simp [hfitsMaster, hfits]
    · rw [hend.name, lastFitting]
      by_cases hfits : 20 ≤ room (arg :: args) env
      · simp [List.filter_cons, hfitsMaster, hfitsWorker, hfits]
        split <;> rfl
      · have hnot : ¬ 20 ≤ (packed env).length := by omega
        simp [hfitsMaster, hfitsWorker, hfits, hnot]
  · rw [if_neg hlen] at htitle
    have hnone : (Proc.start pre (arg :: args) env post).master = none := by
      rw [Proc.master, Option.map_eq_none_iff.mp htitle]
      rfl
    rw [hnone]
    exact ⟨iff_of_false Bool.false_ne_true hlen, fun m hm => absurd hm (by simp)⟩

end Mgx
