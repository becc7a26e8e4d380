import Mathlib

/-
  Arrays and C strings as lists.

  `overwrite` is a store of consecutive cells into an array; `cstr` is what the
  string functions of C see of a byte array, the bytes before the first NUL.
  `strstr`, `tokens` (the tokens `strtok` returns one after the other) and `stoi`
  are the library functions of these names.

  Nothing here names a program.
-/
namespace CMem

/-- `x` written over the cells of `l` from offset `off` on. -/
def overwrite {α : Type} (l : List α) (off : Nat) (x : List α) : List α :=
  l.take off ++ x ++ l.drop (off + x.length)

theorem length_overwrite {α : Type} {l : List α} {off : Nat} {x : List α}
    (h : off + x.length ≤ l.length) : (overwrite l off x).length = l.length := by
  simp only [overwrite, List.length_append, List.length_take, List.length_drop]; omega

/-- Two adjacent writes are one write. -/
theorem overwrite_overwrite {α : Type} {l : List α} {off : Nat} {x y : List α}
    (h : off + x.length + y.length ≤ l.length) :
    overwrite (overwrite l off x) (off + x.length) y = overwrite l off (x ++ y) := by
  have hx : (l.take off ++ x).length = off + x.length := by
    simp only [List.length_append, List.length_take]; omega
  have htake : (overwrite l off x).take (off + x.length) = l.take off ++ x := by
    rw [overwrite, ← hx, List.take_left]
  have hdrop : (overwrite l off x).drop (off + x.length + y.length)
      = l.drop (off + x.length + y.length) := by
    rw [overwrite, ← List.drop_drop, ← hx, List.drop_left, hx, List.drop_drop]
  rw [overwrite, htake, hdrop]
  simp only [overwrite, List.append_assoc, List.length_append, Nat.add_assoc]

/-! ## C strings -/

/-- The string a pointer to these bytes denotes: what comes before the first NUL. -/
def cstr (l : List UInt8) : List UInt8 := l.takeWhile (· != 0)

/-- `strlen`, where a NUL is there to be found. -/
def strlen (l : List UInt8) : Nat := (cstr l).length

theorem cstr_eq_take (l : List UInt8) : cstr l = l.take (strlen l) :=
  (List.prefix_iff_eq_take.mp (List.takeWhile_prefix _))

theorem not_mem_cstr (l : List UInt8) : (0 : UInt8) ∉ cstr l := by
  intro h
  simpa using List.mem_takeWhile_imp h

/-- What comes before a byte that is not in it. -/
theorem takeWhile_append_cons {sep : UInt8} {s : List UInt8} (h : sep ∉ s) (t : List UInt8) :
    (s ++ sep :: t).takeWhile (· != sep) = s := by
  have hs : ∀ b ∈ s, (b != sep) = true := by
    intro b hb
    rw [bne_iff_ne]
    intro heq
    exact h (heq ▸ hb)
  rw [List.takeWhile_append_of_pos hs]
  simp

/-- A string without NUL, terminated, denotes itself. -/
theorem cstr_append_nul {s : List UInt8} (h : (0 : UInt8) ∉ s) (t : List UInt8) :
    cstr (s ++ 0 :: t) = s := takeWhile_append_cons h t

/-- `cstr` keeps everything exactly when there is no NUL. -/
theorem cstr_eq_self_iff (s : List UInt8) : cstr s = s ↔ (0 : UInt8) ∉ s := by
  rw [cstr, List.takeWhile_eq_self_iff]
  constructor
  · intro h h0
    simpa using h 0 h0
  · intro h b hb
    simp only [bne_iff_ne, ne_eq]
    intro hb0
    exact h (hb0 ▸ hb)

/-- A C string, without its NUL. -/
abbrev CStr := { s : List UInt8 // (0 : UInt8) ∉ s }

/-- The string a pointer to these bytes denotes. -/
def CStr.of (l : List UInt8) : CStr := ⟨cstr l, not_mem_cstr l⟩

/-- The `n` bytes from index `i` on. -/
def CStr.substr (s : CStr) (i n : Nat) : CStr :=
  ⟨(s.1.drop i).take n, fun h => s.2 (List.mem_of_mem_drop (List.mem_of_mem_take h))⟩

/-- `strstr`: where `pat` first occurs. -/
def strstr (pat : List UInt8) : List UInt8 → Option Nat
  | [] => if pat.isEmpty then some 0 else none
  | b :: l => if pat.isPrefixOf (b :: l) then some 0 else (strstr pat l).map (· + 1)

/-- A byte that `pat` does not have ends every occurrence of it. -/
theorem isPrefixOf_append_cons {sep : UInt8} (b : List UInt8) : ∀ {pat : List UInt8}
    (a : List UInt8), sep ∉ pat → pat.isPrefixOf (a ++ sep :: b) = pat.isPrefixOf a
  | [], _, _ => by simp
  | p :: ps, [], hsep => by
    have hp : (p == sep) = false := by
      rw [beq_eq_false_iff_ne]
      rintro rfl
      exact hsep List.mem_cons_self
    simp [List.isPrefixOf, hp]
  | p :: ps, x :: a, hsep => by
    have ih := isPrefixOf_append_cons b a (fun h => hsep (List.mem_cons_of_mem p h))
    rw [List.cons_append, List.isPrefixOf, List.isPrefixOf, ih]

/-- So a search goes on behind it. -/
theorem strstr_append_cons {pat : List UInt8} {sep : UInt8} (hpat : pat ≠ []) (hsep : sep ∉ pat)
    (b : List UInt8) : ∀ a : List UInt8, strstr pat (a ++ sep :: b) =
      match strstr pat a with
      | some j => some j
      | none => (strstr pat b).map (· + (a.length + 1))
  | [] => by
    have hno : pat.isPrefixOf (sep :: b) = false := by
      have h := isPrefixOf_append_cons b [] hsep
      rw [List.nil_append] at h
      rw [h]
      cases pat with
      | nil => exact absurd rfl hpat
      | cons p ps => rfl
    have hnil : strstr pat [] = none := by simp [strstr, hpat]
    rw [List.nil_append, hnil, strstr.eq_2, hno]
    rfl
  | x :: a => by
    have hpre := isPrefixOf_append_cons b (x :: a) hsep
    rw [List.cons_append] at hpre ⊢
    rw [strstr, hpre, strstr, strstr_append_cons hpat hsep b a]
    split
    · rfl
    · cases strstr pat a with
      | some j => rfl
      | none =>
        rw [Option.map_none, Option.map_map]
        rfl

theorem strstr_append_self {pat : List UInt8} (hpat : pat ≠ []) (l : List UInt8) :
    strstr pat (pat ++ l) = some 0 := by
  cases pat with
  | nil => exact absurd rfl hpat
  | cons p ps =>
    have hpre : (p :: ps).isPrefixOf (p :: ps ++ l) = true :=
      List.isPrefixOf_iff_prefix.mpr (List.prefix_append _ _)
    exact if_pos hpre

/-- What is found lies inside. -/
theorem strstr_le {pat : List UInt8} : ∀ {l : List UInt8} {j : Nat}, strstr pat l = some j →
    j + pat.length ≤ l.length
  | [], j, h => by
    cases pat <;> simp_all [strstr]
  | b :: l, j, h => by
    rw [strstr] at h
    split at h
    · rename_i hpre
      obtain rfl := Option.some.inj h
      have hle := (List.isPrefixOf_iff_prefix.mp hpre).length_le
      omega
    · obtain ⟨i, hi, rfl⟩ := Option.map_eq_some_iff.mp h
      have hle := strstr_le hi
      rw [List.length_cons]
      omega

/-- Nothing is found when `pat` does not occur. -/
theorem strstr_eq_none_iff {pat : List UInt8} (hpat : pat ≠ []) :
    ∀ l : List UInt8, strstr pat l = none ↔ ¬ pat <:+: l
  | [] => by simp [strstr, hpat]
  | b :: l => by
    have ih := strstr_eq_none_iff hpat l
    rw [strstr, List.infix_cons_iff, ← List.isPrefixOf_iff_prefix]
    split
    · simp_all
    · simp_all

/-- The tokens `strtok` cuts a string into: the longest runs without a delimiter. -/
def tokens (delim : UInt8 → Bool) (s : List UInt8) : List (List UInt8) :=
  (s.splitOnP delim).filter (!·.isEmpty)

theorem tokens_nil (delim : UInt8 → Bool) : tokens delim [] = [] := by
  rw [tokens, List.splitOnP_nil, List.filter_cons_of_neg (by decide), List.filter_nil]

/-- A token is cut from the string. -/
theorem sublist_of_mem_tokens {delim : UInt8 → Bool} {s t : List UInt8}
    (ht : t ∈ tokens delim s) : t.Sublist s := by
  have hsplit : ∀ s : List UInt8, ∀ t ∈ s.splitOnP delim, t.Sublist s := by
    intro s
    induction s with
    | nil =>
      intro t ht
      rw [List.splitOnP_nil, List.mem_singleton] at ht
      rw [ht]
    | cons a s ih =>
      intro t ht
      rw [List.splitOnP_cons_eq_if_modifyHead] at ht
      split at ht
      · rcases List.mem_cons.mp ht with rfl | ht
        · exact List.nil_sublist _
        · exact (ih t ht).cons a
      · cases hs : s.splitOnP delim with
        | nil => exact absurd hs (List.splitOnP_ne_nil delim s)
        | cons u us =>
          rw [hs] at ht ih
          rcases List.mem_cons.mp ht with rfl | ht
          · exact (ih u List.mem_cons_self).cons_cons a
          · exact (ih t (List.mem_cons_of_mem u ht)).cons a
  exact hsplit s t (List.mem_of_mem_filter ht)

/-- Delimiters in front of a token are skipped. -/
theorem tokens_delims_append {delim : UInt8 → Bool} (s : List UInt8) :
    ∀ {e : List UInt8}, (∀ d ∈ e, delim d = true) → tokens delim (e ++ s) = tokens delim s
  | [], _ => rfl
  | d :: e, h => by
    have ih := tokens_delims_append s (fun x hx => h x (List.mem_cons_of_mem d hx))
    rw [← ih, List.cons_append, tokens, List.splitOnP_cons_eq_if_modifyHead,
      if_pos (h d List.mem_cons_self),
      List.filter_cons_of_neg (by decide), tokens]

/-- A token ends at the next delimiter. -/
theorem tokens_append_cons {delim : UInt8 → Bool} {l : List UInt8} {d : UInt8} (hne : l ≠ [])
    (hl : ∀ b ∈ l, delim b = false) (hd : delim d = true) (s : List UInt8) :
    tokens delim (l ++ d :: s) = l :: tokens delim s := by
  rw [tokens, List.splitOnP_append_cons_of_forall_mem hl d hd,
    List.filter_cons_of_pos (by simp [hne]), tokens]

/-- Tokens joined by a delimiter are found again. -/
theorem tokens_intercalate {delim : UInt8 → Bool} {d : UInt8} (hd : delim d = true) :
    ∀ ls : List (List UInt8), (∀ l ∈ ls, l ≠ [] ∧ ∀ b ∈ l, delim b = false) →
      tokens delim (List.intercalate [d] ls) = ls
  | [], _ => by simp [tokens, List.intercalate]
  | [l], h => by
    obtain ⟨hne, hl⟩ := h l (List.mem_singleton_self l)
    simp [tokens, List.intercalate, List.splitOnP_eq_singleton hl, hne]
  | l :: m :: ls, h => by
    obtain ⟨hne, hl⟩ := h l List.mem_cons_self
    have ih := tokens_intercalate hd (m :: ls) (fun x hx => h x (List.mem_cons_of_mem _ hx))
    rw [List.intercalate_cons_cons, List.append_assoc, List.singleton_append,
      tokens_append_cons hne hl hd, ih]

/-- Tokens of which each is ended by delimiters are found again. -/
theorem tokens_flatMap_append {delim : UInt8 → Bool} {e : List UInt8} (hne : e ≠ [])
    (he : ∀ d ∈ e, delim d = true) :
    ∀ ls : List (List UInt8), (∀ l ∈ ls, l ≠ [] ∧ ∀ b ∈ l, delim b = false) →
      tokens delim (ls.flatMap (· ++ e)) = ls
  | [], _ => tokens_nil delim
  | l :: ls, h => by
    obtain ⟨hlne, hl⟩ := h l List.mem_cons_self
    have ih := tokens_flatMap_append hne he ls (fun x hx => h x (List.mem_cons_of_mem _ hx))
    cases e with
    | nil => exact absurd rfl hne
    | cons d e =>
      have hd := he d List.mem_cons_self
      have hrest : ∀ x ∈ e, delim x = true := fun x hx => he x (List.mem_cons_of_mem d hx)
      rw [List.flatMap_cons, List.append_assoc, List.cons_append,
        tokens_append_cons hlne hl hd, tokens_delims_append _ hrest, ih]

/-- Joining strings brings no NUL in. -/
theorem nul_notMem_intercalate {d : UInt8} (hd : d ≠ 0) :
    ∀ ls : List (List UInt8), (∀ l ∈ ls, (0 : UInt8) ∉ l) → (0 : UInt8) ∉ List.intercalate [d] ls
  | [], _ => by simp
  | [l], h => by simpa using h l (List.mem_singleton_self l)
  | l :: m :: ls, h => by
    have ih := nul_notMem_intercalate hd (m :: ls) fun x hx => h x (List.mem_cons_of_mem _ hx)
    rw [List.intercalate_cons_cons]
    simp only [List.mem_append, List.mem_singleton, not_or]
    exact ⟨⟨h l List.mem_cons_self, hd.symm⟩, ih⟩

/-! ## Numbers -/

def isSpace (b : UInt8) : Bool := b == 32 || (9 ≤ b && b ≤ 13)

def isDigit (b : UInt8) : Bool := 48 ≤ b && b ≤ 57

/-- The number a string of digits denotes. -/
def digitsVal (ds : List UInt8) : Nat := ds.foldl (fun a d => a * 10 + (d.toNat - 48)) 0

/-- `stoi`; `none` where it throws. -/
def stoi (s : List UInt8) : Option Int :=
  let s := s.dropWhile isSpace
  let neg := s.head? = some 45
  let ds := (if neg ∨ s.head? = some 43 then s.tail else s).takeWhile isDigit
  let v : Int := if neg then -(digitsVal ds : Int) else digitsVal ds
  if ds = [] then none else if -2 ^ 31 ≤ v ∧ v < 2 ^ 31 then some v else none

/-- On digits only, `stoi` is their value as long as it fits. -/
theorem stoi_digits {ds : List UInt8} (hne : ds ≠ []) (h : ∀ d ∈ ds, isDigit d = true) :
    stoi ds = if digitsVal ds < 2 ^ 31 then some (digitsVal ds : Int) else none := by
  have htake : ds.takeWhile isDigit = ds := List.takeWhile_eq_self_iff.mpr h
  cases ds with
  | nil => exact absurd rfl hne
  | cons d ds =>
    have hd : 48 ≤ d ∧ d ≤ 57 := by simpa [isDigit] using h d List.mem_cons_self
    have hspace : isSpace d = false := by
      rw [isSpace, Bool.or_eq_false_iff, Bool.and_eq_false_imp]
      refine ⟨?_, fun _ => ?_⟩
      · rw [beq_eq_false_iff_ne]; rintro rfl; exact absurd hd.1 (by decide)
      · rw [decide_eq_false_iff_not]
        intro h13
        exact absurd (UInt8.le_trans hd.1 h13) (by decide)
    have hneg : ¬ (some d = some (45 : UInt8)) := by
      rintro ⟨⟩; exact absurd hd.1 (by decide)
    have hpos : ¬ (some d = some (43 : UInt8)) := by
      rintro ⟨⟩; exact absurd hd.1 (by decide)
    have hdrop : (d :: ds).dropWhile isSpace = d :: ds := by
      rw [List.dropWhile_cons_of_neg (by rw [hspace]; decide)]
    have hiff : (-2 ^ 31 ≤ (digitsVal (d :: ds) : Int) ∧ (digitsVal (d :: ds) : Int) < 2 ^ 31) ↔
        digitsVal (d :: ds) < 2 ^ 31 := by omega
    simp only [stoi, hdrop, List.head?_cons, hneg, hpos, or_self, if_false, htake, hne, hiff]

/-- What `stoi` returns is an `int`. -/
theorem stoi_range {s : List UInt8} {n : Int} (h : stoi s = some n) :
    -2 ^ 31 ≤ n ∧ n < 2 ^ 31 := by
  simp only [stoi, Option.ite_none_left_eq_some, Option.ite_none_right_eq_some,
    Option.some.injEq] at h
  obtain ⟨-, hrange, rfl⟩ := h
  exact hrange

/-- A number that is an `int` is kept by the conversion to `int`. -/
theorem bmod_eq_of_fits {n : Int} (hlow : -2 ^ 31 ≤ n) (hhigh : n < 2 ^ 31) :
    Int.bmod n (2 ^ 32) = n := by
  rw [Int.bmod_def]
  split <;> omega

theorem bmod_range (n : Int) : -2 ^ 31 ≤ Int.bmod n (2 ^ 32) ∧ Int.bmod n (2 ^ 32) < 2 ^ 31 := by
  rw [Int.bmod_def]
  split <;> omega

/-- An `int` does not exceed the number it was made from, unless that is below -1. -/
theorem bmod_le_self {n : Int} (hn : -1 ≤ n) : Int.bmod n (2 ^ 32) ≤ n := by
  rw [Int.bmod_def]
  split <;> omega

/-- The `n` low bytes of `v`, least significant first. -/
def leBytes : Nat → Nat → List UInt8
  | 0, _ => []
  | n + 1, v => UInt8.ofNat v :: leBytes n (v / 256)

@[simp] theorem length_leBytes : ∀ (n v : Nat), (leBytes n v).length = n
  | 0, _ => rfl
  | n + 1, v => by rw [leBytes, List.length_cons, length_leBytes n]

end CMem
