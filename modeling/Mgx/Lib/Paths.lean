import Mathlib.Data.List.DropRight
import Mathlib.Tactic.ByContra

/-
  Paths, resolved lexically.

  A path is cut at its slashes. `.` and the empty segment stay, `..` goes up (at
  the root it stays) and any other segment goes down; a path that does not start
  with a slash starts at the current directory. A directory is the list of the
  names that lead to it from the root.

  What segments do to a directory depends on two things only: how far they climb
  out of it, and the names they go down after that (`Net`, `walk_eq`). From this
  follows when a path that begins like another stays inside its directory
  (`resolve_append_prefix_iff`).

  Nothing here names a program.
-/
namespace Paths

/-- One segment of a path. -/
inductive Seg (ν : Type) where
  | here
  | up
  | name (n : ν)
  deriving DecidableEq, Repr

abbrev Name := List UInt8

def slash : UInt8 := 47

def dot : UInt8 := 46

def seg (s : Name) : Seg Name :=
  if s = [] ∨ s = [dot] then .here else if s = [dot, dot] then .up else .name s

/-- The segments of a path. -/
def segs (path : List UInt8) : List (Seg Name) := (path.splitOn slash).map seg

theorem segs_append_slash (a b : List UInt8) : segs (a ++ slash :: b) = segs a ++ segs b := by
  rw [segs, List.splitOn_append_cons_self, List.map_append]
  rfl

theorem segs_of_notMem {s : List UInt8} (h : slash ∉ s) : segs s = [seg s] := by
  rw [segs, List.splitOn_eq_singleton h]
  rfl

variable {ν : Type}

/-- Follow one segment from a directory. -/
def go (d : List ν) : Seg ν → List ν
  | .here => d
  | .up => d.dropLast
  | .name n => d ++ [n]

def walk (d : List ν) (ss : List (Seg ν)) : List ν := ss.foldl go d

theorem walk_append (d : List ν) (ss ts : List (Seg ν)) :
    walk d (ss ++ ts) = walk (walk d ss) ts := List.foldl_append ..

/-! ## What segments come to -/

/-- How far up, and then which names down. -/
structure Net (ν : Type) where
  ups : Nat
  names : List ν
  deriving DecidableEq, Repr

def Net.go (q : Net ν) : Seg ν → Net ν
  | .here => q
  | .up => if q.names.isEmpty then ⟨q.ups + 1, []⟩ else { q with names := q.names.dropLast }
  | .name n => { q with names := q.names ++ [n] }

def net (ss : List (Seg ν)) : Net ν := ss.foldl Net.go ⟨0, []⟩

/-- The directory reached from `d`. -/
def Net.apply (q : Net ν) (d : List ν) : List ν := d.take (d.length - q.ups) ++ q.names

theorem Net.go_apply (q : Net ν) (d : List ν) (s : Seg ν) :
    Paths.go (q.apply d) s = (q.go s).apply d := by
  cases s with
  | here => rfl
  | name n => exact List.append_assoc ..
  | up =>
    show (d.take (d.length - q.ups) ++ q.names).dropLast = _
    rw [Net.go]
    split
    · -- no name of its own is left to cancel: one name of `d` goes
      rename_i hnil
      have hlen : (d.take (d.length - q.ups)).length = d.length - q.ups := by
        rw [List.length_take]; omega
      rw [List.isEmpty_iff.mp hnil, List.append_nil, List.dropLast_eq_take, hlen, List.take_take,
        apply, List.append_nil]
      congr 1
      show min (d.length - q.ups - 1) (d.length - q.ups) = d.length - (q.ups + 1)
      omega
    · rename_i hne
      exact List.dropLast_append_of_ne_nil (fun h => hne (List.isEmpty_iff.mpr h))

/-- A walk is determined by what the segments come to. -/
theorem walk_eq (d : List ν) (ss : List (Seg ν)) : walk d ss = (net ss).apply d := by
  have h : ∀ (ss : List (Seg ν)) (q : Net ν),
      ss.foldl go (q.apply d) = (ss.foldl Net.go q).apply d := by
    intro ss
    induction ss with
    | nil => intro q; rfl
    | cons s ss ih =>
      intro q
      rw [List.foldl_cons, q.go_apply, ih]
      rfl
  have hstart : (⟨0, []⟩ : Net ν).apply d = d := by simp [Net.apply]
  have hwalk := h ss ⟨0, []⟩
  rw [hstart] at hwalk
  exact hwalk

/-- A walk from `b` ends inside `d`, which agrees with `b` as far as the walk stays below it, when
the names that `d` has beyond that are the first it goes down. -/
theorem prefix_apply_iff {b d : List ν} {q : Net ν}
    (hsame : b.take (b.length - q.ups) = d.take (b.length - q.ups)) :
    d <+: q.apply b ↔ d.drop (b.length - q.ups) <+: q.names := by
  rw [Net.apply, hsame]
  conv_lhs => lhs; rw [← List.take_append_drop (b.length - q.ups) d]
  exact List.prefix_append_right_inj _

/-- When a walk from `b` ends inside the directory that one segment leads to from `b`. -/
theorem go_prefix_walk_iff (b : List ν) (s : Seg ν) (ss : List (Seg ν)) :
    go b s <+: walk b ss ↔ (go b s).drop (b.length - (net ss).ups) <+: (net ss).names := by
  rw [walk_eq]
  cases s with
  | here => exact prefix_apply_iff rfl
  | name n => exact prefix_apply_iff (List.take_append_of_le_length (Nat.sub_le _ _)).symm
  | up =>
    show b.dropLast <+: _ ↔ b.dropLast.drop _ <+: _
    have hlen : b.dropLast.length = b.length - 1 := List.length_dropLast
    by_cases hstay : (net ss).ups = 0 ∧ b ≠ []
    · -- the walk stays in `b`, which lies in the directory above
      have hdrop : b.dropLast.drop (b.length - (net ss).ups) = [] := by
        rw [List.drop_eq_nil_iff]
        omega
      rw [hdrop]
      refine iff_of_true ?_ List.nil_prefix
      rw [Net.apply, hstay.1, Nat.sub_zero, List.take_length]
      exact (List.dropLast_prefix b).trans (List.prefix_append _ _)
    · have hle : b.length - (net ss).ups ≤ b.length - 1 := by
        rcases not_and_or.mp hstay with hups | hb
        · omega
        · rw [not_not.mp hb, List.length_nil, Nat.zero_sub]
      apply prefix_apply_iff
      rw [List.dropLast_eq_take, List.take_take, Nat.min_eq_left hle]

/-! ## Resolution -/

/-- Where a path starts. -/
def start (cwd : List Name) (path : List UInt8) : List Name :=
  if path.head? = some slash then [] else cwd

/-- The directory or file a path denotes. -/
def resolve (cwd : List Name) (path : List UInt8) : List Name := walk (start cwd path) (segs path)

/-- The path up to its last slash, and what comes after. -/
def dirPart (path : List UInt8) : List UInt8 := path.rdropWhile (· != slash)

def lastPart (path : List UInt8) : List UInt8 := path.rtakeWhile (· != slash)

theorem dirPart_append_lastPart (path : List UInt8) : dirPart path ++ lastPart path = path :=
  List.rdropWhile_append_rtakeWhile

theorem slash_notMem_lastPart (path : List UInt8) : slash ∉ lastPart path := by
  intro h
  simpa using List.mem_rtakeWhile_imp h

theorem lastPart_suffix (path : List UInt8) : lastPart path <:+ path :=
  List.rtakeWhile_suffix (· != slash) path

/-- A part without slash belongs to the last one. -/
theorem lastPart_append (a : List UInt8) {b : List UInt8} (h : slash ∉ b) :
    lastPart (a ++ b) = lastPart a ++ b := by
  have hall : ∀ x ∈ b.reverse, (x != slash) = true := by
    intro x hx
    simp only [bne_iff_ne, ne_eq]
    rintro rfl
    exact h (List.mem_reverse.mp hx)
  rw [lastPart, List.rtakeWhile, List.reverse_append, List.takeWhile_append_of_pos hall,
    List.reverse_append, List.reverse_reverse]
  rfl

theorem dirPart_cases (path : List UInt8) :
    dirPart path = [] ∨ ∃ a, dirPart path = a ++ [slash] := by
  by_cases h : dirPart path = []
  · exact .inl h
  · have hlast := List.rdropWhile_last_not (· != slash) path h
    simp only [bne_iff_ne, ne_eq, not_not] at hlast
    have happ := List.dropLast_append_getLast h
    refine .inr ⟨(dirPart path).dropLast, ?_⟩
    rw [← hlast]
    exact happ.symm

/-- Walking a path whose directory part is known. -/
theorem walk_dirPart (b : List Name) (path x : List UInt8) :
    walk b (segs (dirPart path ++ x)) = walk (walk b (segs (dirPart path))) (segs x) := by
  rcases dirPart_cases path with h | ⟨a, h⟩
  · rw [h]
    rfl
  · rw [h, List.append_assoc, List.singleton_append, segs_append_slash, segs_append_slash,
      walk_append, walk_append]
    rfl

/-- The directory in which the last part of `root` stands, when `root` is followed by `rest`. -/
def base (cwd : List Name) (root rest : List UInt8) : List Name :=
  walk (start cwd (root ++ rest)) (segs (dirPart root))

/-- **When a longer path stays inside.** The path `root ++ rest` ends inside the directory `root`
exactly when the names of `root` that its segments climb out of, counted from the last part of
`root` on, are the first that they go down again. -/
theorem resolve_append_prefix_iff (cwd : List Name) (root rest : List UInt8) :
    resolve cwd root <+: resolve cwd (root ++ rest) ↔
      (resolve cwd root).drop
          ((base cwd root rest).length - (net (segs (lastPart root ++ rest))).ups) <+:
        (net (segs (lastPart root ++ rest))).names := by
  have hpath : resolve cwd (root ++ rest) =
      walk (base cwd root rest) (segs (lastPart root ++ rest)) := by
    have hsplit : root ++ rest = dirPart root ++ (lastPart root ++ rest) := by
      rw [← List.append_assoc, dirPart_append_lastPart]
    rw [base, ← walk_dirPart, ← hsplit]
    rfl
  rw [hpath]
  by_cases hstart : start cwd (root ++ rest) = start cwd root
  · -- the usual case: both start in the same place
    have hroot : resolve cwd root = go (base cwd root rest) (seg (lastPart root)) := by
      have hlast := segs_of_notMem (slash_notMem_lastPart root)
      have hwalk := walk_dirPart (start cwd root) root (lastPart root)
      rw [dirPart_append_lastPart, hlast] at hwalk
      rw [base, hstart]
      exact hwalk
    rw [hroot]
    exact go_prefix_walk_iff _ _ _
  · -- the root is the empty path, and the rest starts with a slash
    have hnil : root = [] := by
      by_contra hne
      obtain ⟨x, xs, rfl⟩ := List.exists_cons_of_ne_nil hne
      exact hstart rfl
    subst hnil
    have habs : rest.head? = some slash := by
      by_contra hrel
      exact hstart (if_neg hrel)
    have hbase : base cwd [] rest = [] := by
      rw [base, List.nil_append, start, if_pos habs]
      rfl
    rw [hbase, walk_eq]
    apply prefix_apply_iff
    rw [List.length_nil, Nat.zero_sub, List.take_zero, List.take_zero]

/-- After a slash, that directory is `root` itself. -/
theorem base_of_slash (cwd : List Name) (a rest : List UInt8) :
    base cwd (a ++ [slash]) rest = resolve cwd (a ++ [slash]) ∧ lastPart (a ++ [slash]) = [] := by
  have hdir : dirPart (a ++ [slash]) = a ++ [slash] := List.rdropWhile_concat_neg _ _ _ (by simp)
  refine ⟨?_, List.rtakeWhile_concat_neg _ _ _ (by simp)⟩
  rw [base, hdir]
  cases a <;> rfl

end Paths
