import Mgx.HttpRequest
import Mgx.Lib.Numeral
import Mgx.Lib.Paths

/-
  Where the log of a day is.

  The log of a day is a file of its own, in directories for the year, the month and
  the day. `mk_pdirs` makes those that are missing: it cuts the path at each slash
  in turn, asks for what is in front of it, and makes it when it is not there. What
  `mkdir` answers is not looked at.

  Correspondence (C++ ↔ Lean), `app/mgx_log.cpp`:
    the directories there are, by the names from the
      root on, and the working directory             ↔ `dirs`, `cwd`
    what the file system refuses                     ↔ `Refusals`
    `stat(dirname, ..)`, `mkdir`                     ↔ `stat`, `mkdir`
    the loop of `mk_pdirs`, with `dirname` up to `p` ↔ `mkPdirsLoop`
    `"%04d/%02d/%02d"`, cut off by `strtok`          ↔ `dateString`
    `log_file` in `mgx_log_init`                     ↔ `logFileName`

  `stat` and `mkdir` may fail for any reason of their own (no permission, no space, a
  name that is too long). A file in the way is a refusal too: `stat` finds it, and no
  directory is made there or below. There are no symbolic links.

  What is proved: `log_of_the_day`. Whatever is refused, no directory is removed and
  none is made but those on the way. When no missing one is refused, the directory of
  the log exists when the log is opened. The log is under the names of the year, the
  month and the day, so that two days have not the same log.
-/
namespace Mgx
open Paths

/-- `FILENAME_MAX`. -/
def filenameMax : Nat := 4096

/-- The directory that a walk ends in, when all on the way are there. -/
def reach (dirs : List (List Name)) (d : List Name) : List (Seg Name) → Option (List Name)
  | [] => if d ∈ dirs then some d else none
  | s :: ss => if d ∈ dirs then reach dirs (go d s) ss else none

/-- The directory that a path leads to, if it is there. -/
def find (cwd : List Name) (dirs : List (List Name)) (path : Bytes) : Option (List Name) :=
  reach dirs (start cwd path) (segs path)

/-- Where `stat` and `mkdir` fail whatever directories there are. -/
structure Refusals where
  stat : Bytes → Bool
  mkdir : Bytes → Bool

/-- `stat` fails. -/
def statFails (no : Refusals) (cwd : List Name) (dirs : List (List Name)) (path : Bytes) : Bool :=
  no.stat path || (find cwd dirs path).isNone

/-- `mkdir`, for which slashes at the end make no difference. -/
def mkdir (no : Refusals) (cwd : List Name) (dirs : List (List Name)) (path : Bytes) :
    List (List Name) :=
  let name := path.rdropWhile (· == slash)
  match (segs name).getLast? with
  | some (.name n) =>
    match reach dirs (start cwd name) (segs name).dropLast with
    | some d => if no.mkdir path = true ∨ d ++ [n] ∈ dirs then dirs else (d ++ [n]) :: dirs
    | none => dirs
  | _ => dirs

/-- The loop of `mk_pdirs`: `dirname` is the path up to here. -/
def mkPdirsLoop (no : Refusals) (cwd : List Name) (dirname : Bytes) :
    Bytes → List (List Name) → List (List Name)
  | [], dirs => dirs
  | b :: rest, dirs =>
    mkPdirsLoop no cwd (dirname ++ [b]) rest
      (if b = slash ∧ dirname ≠ [] ∧ statFails no cwd dirs dirname = true then
        mkdir no cwd dirs dirname
      else dirs)

/-- `mk_pdirs`; `sprintf` overflows `dirname` for a longer name. -/
def mkPdirs (no : Refusals) (cwd : List Name) (dirs : List (List Name)) (fname : Bytes) :
    Option (List (List Name)) :=
  if fname.length < filenameMax then some (mkPdirsLoop no cwd [] fname dirs) else none

/-- `%0wd`. -/
def zeroPadded (w n : Nat) : Bytes :=
  let digits := Numeral.write 10 (fun d => UInt8.ofNat (48 + d)) n
  List.replicate (w - digits.length) 48 ++ digits

/-- `"%04d/%02d/%02d"`. -/
def dateString (year month day : Nat) : Bytes :=
  zeroPadded 4 year ++ slash :: (zeroPadded 2 month ++ slash :: zeroPadded 2 day)

/-- `log_path + "/" + strtok(time_buf, " ") + "/mgx.log"`. -/
def logFileName (logPath : Bytes) (year month day : Nat) : Bytes :=
  logPath ++ slash :: (dateString year month day ++ slash :: ascii "mgx.log")

/-- With a directory its parents exist. -/
structure Tree (cwd : List Name) (dirs : List (List Name)) : Prop where
  root : [] ∈ dirs
  cwd : cwd ∈ dirs
  above : ∀ d ∈ dirs, d.dropLast ∈ dirs

/-! ## Walks -/

section
variable {cwd d : List Name} {dirs dirs' : List (List Name)}

theorem reach_append (dirs : List (List Name)) (ss ts : List (Seg Name)) : ∀ d : List Name,
    reach dirs d (ss ++ ts) = (reach dirs d ss).bind fun e => reach dirs e ts := by
  induction ss with
  | nil =>
    intro d
    rw [List.nil_append, reach]
    split
    · rfl
    next hd =>
      cases ts with
      | nil => rw [reach, if_neg hd, Option.bind_none]
      | cons t ts => rw [reach, if_neg hd, Option.bind_none]
  | cons s ss ih =>
    intro d
    rw [List.cons_append, reach, reach]
    split
    · exact ih (go d s)
    · rfl

/-- A walk ends where it leads, in a directory that exists. -/
theorem reach_eq {ss : List (Seg Name)} {e : List Name} (h : reach dirs d ss = some e) :
    e = walk d ss ∧ e ∈ dirs := by
  induction ss generalizing d with
  | nil =>
    obtain ⟨hd, hde⟩ := Option.ite_none_right_eq_some.mp h
    obtain rfl := Option.some.inj hde
    exact ⟨rfl, hd⟩
  | cons s ss ih =>
    obtain ⟨-, h⟩ := Option.ite_none_right_eq_some.mp h
    exact ih h

/-- More directories lead no less far. -/
theorem reach_mono (hsub : ∀ x ∈ dirs, x ∈ dirs') {ss : List (Seg Name)} {e : List Name}
    (h : reach dirs d ss = some e) : reach dirs' d ss = some e := by
  induction ss generalizing d with
  | nil =>
    obtain ⟨hd, hde⟩ := Option.ite_none_right_eq_some.mp h
    rw [reach, if_pos (hsub d hd), hde]
  | cons s ss ih =>
    obtain ⟨hd, h⟩ := Option.ite_none_right_eq_some.mp h
    rw [reach, if_pos (hsub d hd)]
    exact ih h

theorem reach_nil (h : d ∈ dirs) : reach dirs d [] = some d := if_pos h

theorem reach_singleton (h : d ∈ dirs) {s : Seg Name} (hs : go d s ∈ dirs) :
    reach dirs d [s] = some (go d s) := by
  rw [reach, if_pos h, reach_nil hs]

theorem Tree.start_mem (h : Tree cwd dirs) (path : Bytes) : start cwd path ∈ dirs := by
  unfold start
  split
  · exact h.root
  · exact h.cwd

/-- Making a directory keeps the tree. -/
theorem Tree.cons (h : Tree cwd dirs) (hd : d ∈ dirs) (n : Name) : Tree cwd ((d ++ [n]) :: dirs) := by
  refine ⟨List.mem_cons_of_mem _ h.root, List.mem_cons_of_mem _ h.cwd, fun x hx => ?_⟩
  rcases List.mem_cons.mp hx with rfl | hx
  · rw [List.dropLast_concat]
    exact List.mem_cons_of_mem _ hd
  · exact List.mem_cons_of_mem _ (h.above x hx)

theorem start_append {a : Bytes} (hne : a ≠ []) (x : Bytes) :
    start cwd (a ++ x) = start cwd a := by
  unfold start
  rw [List.head?_append_of_ne_nil _ hne]

/-- Slashes at the end lead nowhere. -/
theorem walk_rdropWhile_slash (d : List Name) (path : Bytes) :
    walk d (segs (path.rdropWhile (· == slash))) = walk d (segs path) := by
  induction path using List.reverseRecOn with
  | nil => rfl
  | append_singleton path b ih =>
    by_cases hb : b = slash
    · subst hb
      have hsegs : segs (path ++ [slash]) = segs path ++ segs [] := segs_append_slash path []
      rw [List.rdropWhile_concat_pos _ _ _ (by simp), ih, hsegs, walk_append]
      rfl
    · rw [List.rdropWhile_concat_neg _ _ _ (by simpa using hb)]

/-- `mkdir` makes the directory that the path leads to, in one that is there, or nothing. -/
theorem mkdir_cases (no : Refusals) (cwd : List Name) (dirs : List (List Name)) (path : Bytes) :
    mkdir no cwd dirs path = dirs ∨
      ∃ d n, d ∈ dirs ∧ d ++ [n] = walk (start cwd path) (segs path) ∧
        mkdir no cwd dirs path = (d ++ [n]) :: dirs := by
  simp only [mkdir]
  set name := path.rdropWhile (· == slash) with hname
  split
  next n hlast =>
    split
    next d hd =>
      split
      · exact .inl rfl
      · obtain ⟨hwalk, hmem⟩ := reach_eq hd
        have hsegs : (segs name).dropLast ++ [.name n] = segs name :=
          List.dropLast_append_getLast? _ hlast
        have hne : name ≠ [] := by
          intro hnil
          rw [hnil] at hlast
          cases hlast
        obtain ⟨x, hx⟩ : name <+: path := List.rdropWhile_prefix _ _
        have hstart : start cwd path = start cwd name := by
          rw [← hx, start_append hne]
        refine .inr ⟨d, n, hmem, ?_, rfl⟩
        calc d ++ [n] = walk (start cwd name) (segs name) := by
              rw [← hsegs, walk_append, ← hwalk]
              rfl
          _ = walk (start cwd path) (segs path) := by
              rw [hname, walk_rdropWhile_slash, ← hname, hstart]
    next => exact .inl rfl
  next => exact .inl rfl

theorem mem_mkdir (no : Refusals) {path : Bytes} (hd : d ∈ dirs) : d ∈ mkdir no cwd dirs path := by
  rcases mkdir_cases no cwd dirs path with hsame | ⟨e, n, -, -, heq⟩
  · rw [hsame]
    exact hd
  · rw [heq]
    exact List.mem_cons_of_mem _ hd

/-- What is missing in a directory that is there is made, unless that is refused. -/
theorem mkdir_eq {no : Refusals} {path : Bytes} {ss : List (Seg Name)} {n : Name}
    (hsegs : segs path = ss ++ [.name n]) (hd : reach dirs (start cwd path) ss = some d)
    (hyes : no.mkdir path = false) (hnew : d ++ [n] ∉ dirs) :
    mkdir no cwd dirs path = (d ++ [n]) :: dirs := by
  have hname : path.rdropWhile (· == slash) = path := by
    rcases List.eq_nil_or_concat' path with rfl | ⟨a, b, rfl⟩
    · rfl
    · refine List.rdropWhile_concat_neg _ _ _ (fun hb => ?_)
      have hb : b = slash := by simpa using hb
      subst hb
      have hslash : segs (a ++ [slash]) = segs a ++ [.here] := segs_append_slash a []
      rw [hslash] at hsegs
      cases (List.append_inj' hsegs rfl).2
  have hno : ¬ (no.mkdir path = true ∨ d ++ [n] ∈ dirs) := by simp [hyes, hnew]
  simp only [mkdir, hname, hsegs, List.getLast?_concat, List.dropLast_concat, hd, if_neg hno]

end

/-! ## The loop -/

/-- The directories there are after some of the path: those there were, and some of those that the
path up to one of its slashes leads to. -/
structure MadeFor (cwd : List Name) (dirs : List (List Name)) (path : Bytes)
    (dirs' : List (List Name)) : Prop where
  tree : Tree cwd dirs'
  kept : ∀ d ∈ dirs, d ∈ dirs'
  made : ∀ d ∈ dirs', d ∈ dirs ∨ ∃ a b, path = a ++ slash :: b ∧ d = walk (start cwd path) (segs a)

/-- The path up to each of its slashes leads to a directory that is there. -/
def Reached (cwd : List Name) (path : Bytes) (dirs : List (List Name)) : Prop :=
  ∀ a b, path = a ++ slash :: b → ∃ d, reach dirs (start cwd path) (segs a) = some d

/-- No directory on the way that is missing is refused. -/
def Makeable (no : Refusals) (cwd : List Name) (dirs : List (List Name)) (path : Bytes) : Prop :=
  ∀ a b, path = a ++ slash :: b → find cwd dirs a = none → no.mkdir a = false

section
variable {no : Refusals} {cwd : List Name} {dirs dirs' : List (List Name)} {dirname : Bytes}

/-- Where a path that is one character longer has its slashes. -/
theorem split_concat {x y : Bytes} {b : UInt8} (h : dirname ++ [b] = x ++ slash :: y) :
    (x = dirname ∧ b = slash) ∨ ∃ z, dirname = x ++ slash :: z := by
  rcases List.eq_nil_or_concat' y with rfl | ⟨z, c, rfl⟩
  · obtain ⟨hx, hb⟩ := List.append_inj' h rfl
    exact .inl ⟨hx.symm, List.singleton_inj.mp hb⟩
  · have hcut : dirname ++ [b] = (x ++ slash :: z) ++ [c] := by
      rw [h, List.append_assoc, List.cons_append]
    exact .inr ⟨z, (List.append_inj' hcut rfl).1⟩

/-- What was made for a path was made for a longer one. -/
theorem MadeFor.longer (h : MadeFor cwd dirs dirname dirs') (b : UInt8) :
    MadeFor cwd dirs (dirname ++ [b]) dirs' := by
  refine ⟨h.tree, h.kept, fun d hd => ?_⟩
  rcases h.made d hd with hold | ⟨x, y, hxy, hwalk⟩
  · exact .inl hold
  · have hne : dirname ≠ [] := by
      rw [hxy]
      simp
    refine .inr ⟨x, y ++ [b], ?_, ?_⟩
    · rw [hxy, List.append_assoc, List.cons_append]
    · rw [start_append hne, hwalk]

/-- The path up to a slash may be made. -/
theorem MadeFor.mkdir (h : MadeFor cwd dirs dirname dirs') (hne : dirname ≠ []) :
    MadeFor cwd dirs (dirname ++ [slash]) (mkdir no cwd dirs' dirname) := by
  rcases mkdir_cases no cwd dirs' dirname with hsame | ⟨d, n, hmem, hwalk, heq⟩
  · rw [hsame]
    exact h.longer slash
  · rw [heq]
    refine ⟨h.tree.cons hmem n, fun x hx => List.mem_cons_of_mem _ (h.kept x hx), fun x hx => ?_⟩
    rcases List.mem_cons.mp hx with rfl | hx
    · exact .inr ⟨dirname, [], rfl, by rw [start_append hne, hwalk]⟩
    · exact (h.longer slash).made x hx

/-- The loop, to the end of the path. -/
theorem MadeFor.loop : ∀ {rest dirname : Bytes} {dirs' : List (List Name)},
    MadeFor cwd dirs dirname dirs' →
    MadeFor cwd dirs (dirname ++ rest) (mkPdirsLoop no cwd dirname rest dirs')
  | [], dirname, dirs', h => by
    rw [List.append_nil]
    exact h
  | b :: rest, dirname, dirs', h => by
    have hsplit : dirname ++ b :: rest = dirname ++ [b] ++ rest := by simp
    rw [mkPdirsLoop, hsplit]
    apply MadeFor.loop
    split
    next hmake =>
      obtain ⟨rfl, hne, -⟩ := hmake
      exact h.mkdir hne
    next => exact h.longer b

/-- What is in front of the last slash so far, and the last part behind it. -/
theorem Reached.front (h : Reached cwd dirname dirs') (htree : Tree cwd dirs') :
    ∃ d ss s, segs dirname = ss ++ [s] ∧ reach dirs' (start cwd dirname) ss = some d := by
  by_cases hslash : slash ∈ dirname
  · have hlast := slash_notMem_lastPart dirname
    have hsplit := dirPart_append_lastPart dirname
    obtain ⟨a, ha⟩ : ∃ a, dirPart dirname = a ++ [slash] := by
      rcases dirPart_cases dirname with hnil | ⟨a, ha⟩
      · rw [hnil, List.nil_append] at hsplit
        rw [hsplit] at hlast
        exact absurd hslash hlast
      · exact ⟨a, ha⟩
    have heq : dirname = a ++ slash :: lastPart dirname := by
      rw [ha, List.append_assoc] at hsplit
      exact hsplit.symm
    obtain ⟨d, hd⟩ := h a (lastPart dirname) heq
    refine ⟨d, segs a, seg (lastPart dirname), ?_, hd⟩
    have hsegs := segs_append_slash a (lastPart dirname)
    rw [← heq, segs_of_notMem hlast] at hsegs
    exact hsegs
  · refine ⟨start cwd dirname, [], seg dirname, segs_of_notMem hslash, ?_⟩
    exact reach_nil (htree.start_mem dirname)

/-- The path up to a slash is there, or is made now. -/
theorem Reached.cut (h : Reached cwd dirname dirs') (htree : Tree cwd dirs')
    (hyes : find cwd dirs' dirname = none → no.mkdir dirname = false) :
    ∃ d, reach (if statFails no cwd dirs' dirname = true then mkdir no cwd dirs' dirname else dirs')
      (start cwd dirname) (segs dirname) = some d := by
  have hsub : ∀ x ∈ dirs', x ∈ mkdir no cwd dirs' dirname := fun x hx => mem_mkdir no hx
  cases hfind : find cwd dirs' dirname with
  | some d =>
    refine ⟨d, ?_⟩
    split
    · exact reach_mono hsub hfind
    · exact hfind
  | none =>
    have hfails : statFails no cwd dirs' dirname = true := by simp [statFails, hfind]
    obtain ⟨d, ss, s, hsegs, hd⟩ := h.front htree
    obtain ⟨-, hmem⟩ := reach_eq hd
    -- only a name can be missing
    have hgo : go d s ∉ dirs' := by
      intro hgo
      have hreach : find cwd dirs' dirname = some (go d s) := by
        rw [find, hsegs, reach_append, hd, Option.bind_some, reach_singleton hmem hgo]
      rw [hreach] at hfind
      cases hfind
    cases s with
    | here => exact absurd hmem hgo
    | up => exact absurd (htree.above d hmem) hgo
    | name n =>
      have heq := mkdir_eq hsegs hd (hyes hfind) hgo
      refine ⟨d ++ [n], ?_⟩
      rw [if_pos hfails, heq, hsegs, reach_append]
      rw [heq] at hsub
      rw [reach_mono hsub hd, Option.bind_some]
      exact reach_singleton (hsub d hmem) List.mem_cons_self

/-- One more character of the path. -/
theorem Reached.next (h : Reached cwd dirname dirs') (htree : Tree cwd dirs') {b : UInt8}
    (hyes : b = slash → find cwd dirs' dirname = none → no.mkdir dirname = false) :
    Reached cwd (dirname ++ [b])
      (if b = slash ∧ dirname ≠ [] ∧ statFails no cwd dirs' dirname = true then
        Mgx.mkdir no cwd dirs' dirname
      else dirs') := by
  intro x y hxy
  by_cases hnil : dirname = []
  · subst hnil
    rw [if_neg (fun hc => hc.2.1 rfl)]
    rcases split_concat hxy with ⟨rfl, rfl⟩ | ⟨z, hz⟩
    · exact ⟨[], reach_singleton htree.root htree.root⟩
    · simp at hz
  · rw [start_append hnil]
    rcases split_concat hxy with ⟨rfl, rfl⟩ | ⟨z, hz⟩
    · obtain ⟨d, hd⟩ := h.cut htree (hyes rfl)
      refine ⟨d, ?_⟩
      simpa [hnil] using hd
    · obtain ⟨d, hd⟩ := h x z hz
      refine ⟨d, reach_mono (fun e he => ?_) hd⟩
      split
      · exact mem_mkdir no he
      · exact he

/-- When nothing missing is refused, all of the way is there at the end. -/
theorem Reached.loop : ∀ {rest dirname : Bytes} {dirs' : List (List Name)},
    MadeFor cwd dirs dirname dirs' → Reached cwd dirname dirs' →
    Makeable no cwd dirs (dirname ++ rest) →
    Reached cwd (dirname ++ rest) (mkPdirsLoop no cwd dirname rest dirs')
  | [], dirname, dirs', _, h, _ => by
    rw [List.append_nil]
    exact h
  | b :: rest, dirname, dirs', hmade, h, hyes => by
    have hsplit : dirname ++ b :: rest = dirname ++ [b] ++ rest := by simp
    rw [mkPdirsLoop, hsplit]
    rw [hsplit] at hyes
    have hnow : b = slash → find cwd dirs' dirname = none → no.mkdir dirname = false := by
      intro hb hnone
      refine hyes dirname rest (by simp [hb]) ?_
      by_contra hsome
      obtain ⟨d, hd⟩ := Option.ne_none_iff_exists'.mp hsome
      have hthere : find cwd dirs' dirname = some d := reach_mono hmade.kept hd
      rw [hthere] at hnone
      cases hnone
    refine Reached.loop ?_ (h.next hmade.tree hnow) hyes
    split
    next hmake =>
      obtain ⟨rfl, hne, -⟩ := hmake
      exact hmade.mkdir hne
    next => exact hmade.longer b

/-- What `mk_pdirs` makes. -/
theorem mkPdirs_made (no : Refusals) (htree : Tree cwd dirs) {fname : Bytes}
    (hlen : fname.length < filenameMax) :
    ∃ dirs', mkPdirs no cwd dirs fname = some dirs' ∧ MadeFor cwd dirs fname dirs' ∧
      (Makeable no cwd dirs fname → Reached cwd fname dirs') := by
  have hstart : MadeFor cwd dirs [] dirs := ⟨htree, fun _ hd => hd, fun _ hd => .inl hd⟩
  have hnone : Reached cwd [] dirs := fun x y hxy => by simp at hxy
  exact ⟨_, if_pos hlen, hstart.loop, hnone.loop hstart⟩

end

/-! ## The name -/

section
variable {w n m : Nat}

/-- The digits of a number. -/
theorem mem_zeroPadded {b : UInt8} (hb : b ∈ zeroPadded w n) : 48 ≤ b.toNat ∧ b.toNat < 58 := by
  rcases List.mem_append.mp hb with hb | hb
  · rw [List.eq_of_mem_replicate hb]
    decide
  · obtain ⟨d, hd, rfl⟩ := Numeral.mem_write (by decide) hb
    rw [UInt8.toNat_ofNat']
    omega

theorem slash_notMem_zeroPadded : slash ∉ zeroPadded w n := by
  intro h
  exact absurd (mem_zeroPadded h).1 (by decide)

/-- The number is read back. -/
theorem zeroPadded_inj (h : zeroPadded w n = zeroPadded w m) : n = m := by
  have hread : ∀ n, Numeral.read 10 (fun b : UInt8 => b.toNat - 48) (zeroPadded w n) = n := by
    intro n
    have hvalue : ∀ d, d < 10 → (UInt8.ofNat (48 + d)).toNat - 48 = d := by
      intro d hd
      rw [UInt8.toNat_ofNat']
      omega
    have hzeros : ∀ k, Numeral.read 10 (fun b : UInt8 => b.toNat - 48) (List.replicate k 48) = 0 := by
      intro k
      induction k with
      | zero => rfl
      | succ k ih => rw [List.replicate_succ', Numeral.read_append_singleton, ih]; rfl
    have hdigits : Numeral.read 10 (fun b : UInt8 => b.toNat - 48)
        (Numeral.write 10 (fun d => UInt8.ofNat (48 + d)) n) = n :=
      Numeral.read_write (by decide) hvalue n
    unfold Numeral.read at hzeros hdigits ⊢
    rw [zeroPadded, List.foldl_append, hzeros, hdigits]
  rw [← hread n, h, hread m]

/-- It is the name of a directory. -/
theorem seg_zeroPadded : seg (zeroPadded w n) = .name (zeroPadded w n) := by
  have hne : zeroPadded w n ≠ [] :=
    List.append_ne_nil_of_right_ne_nil _ (Numeral.write_ne_nil (by decide) n)
  have hdot : dot ∉ zeroPadded w n := by
    intro h
    exact absurd (mem_zeroPadded h).1 (by decide)
  have hone : ¬ (zeroPadded w n = [] ∨ zeroPadded w n = [dot]) := by
    rintro (hnil | heq)
    · exact hne hnil
    · exact hdot (heq ▸ List.mem_singleton_self dot)
  have htwo : zeroPadded w n ≠ [dot, dot] := by
    intro heq
    exact hdot (heq ▸ List.mem_cons_self ..)
  rw [seg, if_neg hone, if_neg htwo]

end

/-- The names of the year, the month and the day. -/
theorem segs_dateString (year month day : Nat) : segs (dateString year month day) =
    [.name (zeroPadded 4 year), .name (zeroPadded 2 month), .name (zeroPadded 2 day)] := by
  rw [dateString, segs_append_slash, segs_append_slash, segs_of_notMem slash_notMem_zeroPadded,
    segs_of_notMem slash_notMem_zeroPadded, segs_of_notMem slash_notMem_zeroPadded,
    seg_zeroPadded, seg_zeroPadded, seg_zeroPadded]
  rfl

/-- The path starts where the configured one does, unless that is empty. -/
theorem start_logFileName (cwd : List Name) (logPath x : Bytes) :
    start cwd (logPath ++ slash :: x) = start cwd (logPath ++ [slash]) := by
  cases logPath with
  | nil => rfl
  | cons b logPath => rfl

/-- Where the log is. -/
theorem resolve_logFileName (cwd : List Name) (logPath : Bytes) (year month day : Nat) :
    resolve cwd (logFileName logPath year month day) =
      walk (start cwd (logPath ++ [slash])) (segs logPath) ++
        [zeroPadded 4 year, zeroPadded 2 month, zeroPadded 2 day, ascii "mgx.log"] := by
  have hname : segs (ascii "mgx.log") = [.name (ascii "mgx.log")] := by decide
  rw [resolve, logFileName, start_logFileName, segs_append_slash, segs_append_slash, walk_append,
    segs_dateString, hname]
  simp [walk, go]

/-- **The log of a day.** For any directories that form a tree, any configured path, any date and
whatever the file system refuses: `mk_pdirs` removes no directory and makes only those that the path
of the log leads through. When it is refused none that is missing, the directory of the day is there
then, in which `mgx.log` is opened. On another date the log is another file. -/
theorem log_of_the_day (no : Refusals) (cwd : List Name) (dirs : List (List Name)) (logPath : Bytes)
    (year month day : Nat) (htree : Tree cwd dirs)
    (hlen : (logFileName logPath year month day).length < filenameMax) :
    (∃ dirs', mkPdirs no cwd dirs (logFileName logPath year month day) = some dirs' ∧
      (∀ d ∈ dirs, d ∈ dirs') ∧
      (∀ d ∈ dirs', d ∈ dirs ∨ ∃ a b, logFileName logPath year month day = a ++ slash :: b ∧
        d = walk (start cwd (logFileName logPath year month day)) (segs a)) ∧
      (Makeable no cwd dirs (logFileName logPath year month day) →
        ∃ d ∈ dirs', find cwd dirs' (logPath ++ slash :: dateString year month day) = some d ∧
          resolve cwd (logFileName logPath year month day) = d ++ [ascii "mgx.log"])) ∧
    ∀ year' month' day', resolve cwd (logFileName logPath year' month' day') =
        resolve cwd (logFileName logPath year month day) →
      year' = year ∧ month' = month ∧ day' = day := by
  refine ⟨?_, fun year' month' day' heq => ?_⟩
  · obtain ⟨dirs', hdirs, hmade, hreached⟩ := mkPdirs_made no htree hlen
    refine ⟨dirs', hdirs, hmade.kept, hmade.made, fun hyes => ?_⟩
    have hfile : logFileName logPath year month day =
        (logPath ++ slash :: dateString year month day) ++ slash :: ascii "mgx.log" := by
      simp [logFileName]
    obtain ⟨d, hd⟩ := hreached hyes _ _ hfile
    obtain ⟨hwalk, hmem⟩ := reach_eq hd
    refine ⟨d, hmem, ?_, ?_⟩
    · have hstart : start cwd (logPath ++ slash :: dateString year month day) =
          start cwd (logFileName logPath year month day) :=
        (start_logFileName ..).trans (start_logFileName ..).symm
      rw [find, hstart, hd]
    · have hname : segs (ascii "mgx.log") = [.name (ascii "mgx.log")] := by decide
      calc resolve cwd (logFileName logPath year month day)
          = walk (start cwd (logFileName logPath year month day))
              (segs (logPath ++ slash :: dateString year month day) ++ segs (ascii "mgx.log")) := by
            rw [← segs_append_slash, ← hfile]
            rfl
        _ = d ++ [ascii "mgx.log"] := by
            rw [walk_append, ← hwalk, hname]
            rfl
  · rw [resolve_logFileName, resolve_logFileName] at heq
    have hnames := List.append_cancel_left heq
    simp only [List.cons.injEq, and_true] at hnames
    exact ⟨zeroPadded_inj hnames.1, zeroPadded_inj hnames.2.1, zeroPadded_inj hnames.2.2⟩

/-- The default path, in an empty directory where nothing is refused. -/
theorem log_of_the_day_first :
    ∃ dirs', mkPdirs ⟨fun _ => false, fun _ => false⟩ [] [[]]
        (logFileName (ascii "./log/") 2024 1 2) = some dirs' ∧
      ∃ d ∈ dirs', d = [ascii "log", ascii "2024", ascii "01", ascii "02"] := by
  have htree : Tree [] [[]] := ⟨by decide, by decide, by decide⟩
  obtain ⟨⟨dirs', hdirs, -, -, hday⟩, -⟩ :=
    log_of_the_day ⟨fun _ => false, fun _ => false⟩ [] [[]] (ascii "./log/") 2024 1 2 htree
      (by decide)
  obtain ⟨d, hd, -, hfile⟩ := hday fun _ _ _ _ => rfl
  refine ⟨dirs', hdirs, d, hd, ?_⟩
  have hplace : resolve [] (logFileName (ascii "./log/") 2024 1 2) =
      [ascii "log", ascii "2024", ascii "01", ascii "02"] ++ [ascii "mgx.log"] := by decide
  exact (List.append_inj' (hplace.symm.trans hfile) rfl).1.symm

end Mgx
