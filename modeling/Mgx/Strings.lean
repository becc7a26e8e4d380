import Mgx.HttpRequest

/-
  Lines cut at a character, and trimmed strings.

  The configuration file and the header block are cut by the same statements, a line
  of the one at its first '=', of the other at its first ':'. The position is kept in
  an `int`, and the part behind it is cut with a length that is not its own.

  Correspondence (C++ ↔ Lean), `app/mgx_conf.cpp` and `http/mgx_http_socket.cpp`:
    `int index = line.find_first_of(sep)`   ↔ `findFirstOf`
    `line.substr` twice, both parts trimmed ↔ `splitLine`

  What is proved: a line is cut at its first separator as long as the position behind
  that is an `int` (`splitLine_append`); where it is not, no line comes out as the two
  parts it was made of (`splitLine_long`).
-/
namespace Mgx
open CMem

/-- `std::string::npos`. -/
def npos : Nat := 2 ^ 64 - 1

/-- `line.find_first_of(sep)`, taken to `int`. -/
def findFirstOf (sep : UInt8) (line : Bytes) : Int :=
  Int.bmod ((line.findIdx? (· == sep)).getD npos : Nat) (2 ^ 32)

/-- The two parts of a line; `none` where `index + 1` overflows or `substr` throws. A negative
`index` is a count, or a position, larger than any string. -/
def splitLine (sep : UInt8) (line : Bytes) : Option (Bytes × Bytes) :=
  let index := findFirstOf sep line
  let key := if index < 0 then line else line.take index.toNat
  if index + 1 = 2 ^ 31 ∨ index + 1 < 0 ∨ line.length < index + 1 then none
  else some (strim key, strim ((line.drop (index + 1).toNat).take (line.length - key.length)))

/-! ## Trimming -/

/-- No space at either end. -/
def Trimmed (s : Bytes) : Prop := s.head? ≠ some 32 ∧ s.getLast? ≠ some 32

instance (s : Bytes) : Decidable (Trimmed s) := inferInstanceAs (Decidable (_ ∧ _))

theorem strim_space_cons (s : Bytes) : strim (32 :: s) = strim s := by
  rw [strim, strim, List.dropWhile_cons_of_pos (by decide)]

theorem strim_cons_of_ne {b : UInt8} (hb : b ≠ 32) (s : Bytes) :
    strim (b :: s) = (b :: s).rdropWhile (· == 32) := by
  rw [strim, List.dropWhile_cons_of_neg (by simpa using hb)]

theorem strim_of_trimmed {s : Bytes} (h : Trimmed s) : strim s = s := by
  cases s with
  | nil => rfl
  | cons b s =>
    rw [strim_cons_of_ne fun heq => h.1 (congrArg some heq), List.rdropWhile_eq_self_iff]
    intro hne hlast
    apply h.2
    rw [List.getLast?_eq_some_getLast hne, beq_iff_eq.mp hlast]

theorem length_strim_le (s : Bytes) : (strim s).length ≤ s.length :=
  Nat.le_trans (List.rdropWhile_prefix _ _).length_le (List.dropWhile_suffix _).length_le

/-- Only spaces are trimmed off. -/
theorem count_strim {b : UInt8} (hne : b ≠ 32) (s : Bytes) : (strim s).count b = s.count b := by
  have hdrop : ∀ t : Bytes, (t.dropWhile (· == 32)).count b = t.count b := by
    intro t
    have hspaces : (t.takeWhile (· == 32)).count b = 0 := by
      apply List.count_eq_zero_of_not_mem
      intro hb
      have heq := List.mem_takeWhile_imp hb
      exact hne (beq_iff_eq.mp heq)
    calc (t.dropWhile (· == 32)).count b
        = (t.takeWhile (· == 32)).count b + (t.dropWhile (· == 32)).count b := by
          rw [hspaces, Nat.zero_add]
      _ = t.count b := by rw [← List.count_append, List.takeWhile_append_dropWhile]
  rw [strim, List.rdropWhile, List.count_reverse, hdrop, List.count_reverse, hdrop]

theorem mem_strim {s : Bytes} {b : UInt8} (hb : b ∈ s) (hne : b ≠ 32) : b ∈ strim s := by
  rw [← List.count_pos_iff, count_strim hne, List.count_pos_iff]
  exact hb

/-- The first character of a string stays where it is no space. -/
theorem head?_strim {s : Bytes} (h : s.head? ≠ some 32) : (strim s).head? = s.head? := by
  cases s with
  | nil => rfl
  | cons b s =>
    have hb : b ≠ 32 := fun heq => h (congrArg some heq)
    have hmem := mem_strim (s := b :: s) List.mem_cons_self hb
    rw [strim_cons_of_ne hb] at hmem ⊢
    obtain ⟨t, ht⟩ := List.rdropWhile_prefix (· == 32) (b :: s)
    calc ((b :: s).rdropWhile (· == 32)).head?
        = ((b :: s).rdropWhile (· == 32) ++ t).head? :=
          (List.head?_append_of_ne_nil _ (List.ne_nil_of_mem hmem)).symm
      _ = (b :: s).head? := congrArg List.head? ht

/-! ## Spaces around a string -/

/-- `n` spaces. -/
def spaces (n : Nat) : Bytes := List.replicate n 32

theorem strim_spaces_append (n : Nat) (s : Bytes) : strim (spaces n ++ s) = strim s := by
  induction n with
  | zero => rfl
  | succ n ih =>
    rw [spaces, List.replicate_succ, List.cons_append, strim_space_cons]
    exact ih

theorem strim_spaces (n : Nat) : strim (spaces n) = [] := by
  rw [← List.append_nil (spaces n), strim_spaces_append]
  rfl

theorem rdropWhile_append_spaces (s : Bytes) (n : Nat) :
    (s ++ spaces n).rdropWhile (· == 32) = s.rdropWhile (· == 32) := by
  induction n with
  | zero => rw [spaces, List.replicate_zero, List.append_nil]
  | succ n ih =>
    rw [spaces, List.replicate_succ', ← List.append_assoc,
      List.rdropWhile_concat_pos _ _ _ (by decide)]
    exact ih

theorem strim_append_spaces (s : Bytes) (n : Nat) : strim (s ++ spaces n) = strim s := by
  induction s with
  | nil => exact strim_spaces n
  | cons b s ih =>
    by_cases hb : b = 32
    · subst hb
      rw [List.cons_append, strim_space_cons, strim_space_cons]
      exact ih
    · rw [List.cons_append, strim_cons_of_ne hb, strim_cons_of_ne hb, ← List.cons_append]
      exact rdropWhile_append_spaces (b :: s) n

/-- Spaces around a trimmed string are trimmed off. -/
theorem strim_pad {s : Bytes} (h : Trimmed s) (n m : Nat) :
    strim (spaces n ++ (s ++ spaces m)) = s := by
  rw [strim_spaces_append, strim_append_spaces, strim_of_trimmed h]

theorem strim_rdropWhile (s : Bytes) : strim (s.rdropWhile (· == 32)) = strim s := by
  have hspaces : s.rtakeWhile (· == 32) = spaces (s.rtakeWhile (· == 32)).length := by
    apply List.eq_replicate_of_mem
    intro b hb
    have heq := List.mem_rtakeWhile_imp (p := (· == 32)) hb
    exact beq_iff_eq.mp heq
  calc strim (s.rdropWhile (· == 32))
      = strim (s.rdropWhile (· == 32) ++ s.rtakeWhile (· == 32)) := by
        rw [hspaces, strim_append_spaces]
    _ = strim s := by rw [List.rdropWhile_append_rtakeWhile]

/-- From a first character to a later one, neither of them a space, nothing is trimmed. -/
theorem strim_append_cons {s : Bytes} {sep : UInt8} (hne : s ≠ []) (hs : s.head? ≠ some 32)
    (hsep : sep ≠ 32) (t : Bytes) :
    strim (s ++ sep :: t) = s ++ sep :: t.rdropWhile (· == 32) := by
  cases s with
  | nil => exact absurd rfl hne
  | cons b s =>
    have hb : b ≠ 32 := fun heq => hs (congrArg some heq)
    rw [List.cons_append, strim_cons_of_ne hb, ← List.cons_append, List.rdropWhile,
      List.rdropWhile, List.reverse_append, List.reverse_cons, List.append_assoc,
      List.singleton_append, List.dropWhile_append,
      List.dropWhile_cons_of_neg (p := (· == 32)) (by simpa using hsep)]
    split
    · next hnil => simp [List.isEmpty_iff.mp hnil]
    · simp

/-! ## The cut -/

theorem findIdx?_eq_none_of_notMem {sep : UInt8} {line : Bytes} (h : sep ∉ line) :
    line.findIdx? (· == sep) = none := by
  rw [List.findIdx?_eq_none_iff]
  intro b hb
  rw [beq_eq_false_iff_ne]
  intro heq
  exact h (heq ▸ hb)

theorem findFirstOf_of_notMem {sep : UInt8} {line : Bytes} (h : sep ∉ line) :
    findFirstOf sep line = -1 := by
  unfold findFirstOf
  rw [findIdx?_eq_none_of_notMem h, Option.getD_none]
  decide

theorem findFirstOf_append {sep : UInt8} {name : Bytes} (hname : sep ∉ name) (rest : Bytes) :
    findFirstOf sep (name ++ sep :: rest) = Int.bmod name.length (2 ^ 32) := by
  unfold findFirstOf
  rw [List.findIdx?_append, findIdx?_eq_none_of_notMem hname, List.findIdx?_cons]
  simp

/-- A line splits at its first separator when the index behind that is an `int`. -/
theorem splitLine_append {sep : UInt8} {name rest : Bytes} (hname : sep ∉ name)
    (hlen : name.length + 1 < 2 ^ 31) :
    splitLine sep (name ++ sep :: rest) = some (strim name, strim rest) := by
  have hindex : findFirstOf sep (name ++ sep :: rest) = name.length := by
    rw [findFirstOf_append hname]
    exact bmod_eq_of_fits (by omega) (by omega)
  have hkey : (name ++ sep :: rest).take (name.length : Int).toNat = name := by
    rw [Int.toNat_natCast, List.take_left]
  have hval : (name ++ sep :: rest).drop ((name.length : Int) + 1).toNat = rest := by
    rw [show ((name.length : Int) + 1).toNat = name.length + 1 by omega,
      List.drop_length_add_append, List.drop_one, List.tail_cons]
  have hcount : rest.length ≤ (name ++ sep :: rest).length - name.length := by
    simp only [List.length_append, List.length_cons]
    omega
  have hin : ¬ ((name.length : Int) + 1 = 2 ^ 31 ∨ (name.length : Int) + 1 < 0 ∨
      ((name ++ sep :: rest).length : Int) < (name.length : Int) + 1) := by
    simp only [List.length_append, List.length_cons]
    omega
  simp only [splitLine, hindex]
  rw [if_neg hin, if_neg (by omega), hkey, hval, List.take_of_length_le hcount]

/-- Where the index behind it is no `int`, a separator is left in the first part, or one more than
there should be in the second. -/
theorem splitLine_long {sep : UInt8} (hsep : sep ≠ 32) {name rest : Bytes} (hname : sep ∉ name)
    (hlen : 2 ^ 31 ≤ name.length + 1) {parts : Bytes × Bytes}
    (h : splitLine sep (name ++ sep :: rest) = some parts) :
    sep ∈ parts.1 ∨ parts.2.count sep = rest.count sep + 1 := by
  have hrange := bmod_range name.length
  have hindex := findFirstOf_append hname rest
  simp only [splitLine] at h
  split at h
  · cases h
  · next hin =>
    obtain rfl := Option.some.inj h
    by_cases hneg : findFirstOf sep (name ++ sep :: rest) < 0
    · left
      rw [if_pos hneg]
      exact mem_strim (List.mem_append_right _ List.mem_cons_self) hsep
    · right
      rw [if_neg hneg, count_strim hsep]
      -- the position fell short of the separator, which stays behind it
      have hshort : (findFirstOf sep (name ++ sep :: rest)).toNat + 1 ≤ name.length := by
        rw [hindex]
        omega
      have hdrop : (name ++ sep :: rest).drop (findFirstOf sep (name ++ sep :: rest) + 1).toNat =
          name.drop (findFirstOf sep (name ++ sep :: rest) + 1).toNat ++ sep :: rest := by
        apply List.drop_append_of_le_length
        omega
      have hname' : (name.drop (findFirstOf sep (name ++ sep :: rest) + 1).toNat).count sep = 0 :=
        List.count_eq_zero_of_not_mem fun hb => hname (List.mem_of_mem_drop hb)
      rw [List.take_of_length_le, hdrop, List.count_append, hname', List.count_cons_self,
        Nat.zero_add]
      simp only [List.length_drop, List.length_take]
      omega

end Mgx
