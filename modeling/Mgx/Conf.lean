import Mgx.Strings

/-
  The configuration file: what `load` makes of its lines.

  A line is trimmed, left out when it is a comment or a section header, and cut at its
  first '='. The position of the '=' is kept in an `int`. A line of spaces is not
  empty, so it is cut too, where it has no '=', and puts the empty string under the
  empty key.

  Correspondence (C++ ↔ Lean), `app/mgx_conf.cpp`:
    `while (std::getline(is, line))`      ↔ `getlines`
    the test of `line[0]`                 ↔ `leftOut`
    one round of the loop                 ↔ `loadLine`
    `Mgx_conf::load`                      ↔ `load`
    `Mgx_conf::get_string`                ↔ `getString`

  A file is what it contains, none for one that cannot be opened. `load` has no result
  where `substr` throws or `index + 1` overflows.

  What is proved: `conf_round_trip_iff`. A file of pairs, blank lines, comments and
  section headers, and each file of some of its lines, gives back the last value of
  every key and no other, exactly when the '=' of every pair, and the position behind
  it, has an index that is an `int`.
-/
namespace Mgx
namespace Conf
open CMem

/-! ## The code -/

/-- `configs`. -/
abbrev Configs := Bytes → Option Bytes

/-- The lines of a file: what is behind the last newline is a line when it is not empty. -/
def getlines : Bytes → List Bytes
  | [] => []
  | b :: text =>
    if b = 10 then [] :: getlines text
    else match getlines text with
      | [] => [[b]]
      | line :: lines => (b :: line) :: lines

/-- `line[0] == '#' || line[0] == '[' || line[0] == '/'`; of an empty line it is the NUL. -/
def leftOut (line : Bytes) : Bool :=
  let b := line.headD 0
  b == 35 || b == 91 || b == 47

/-- One line. -/
def loadLine (configs : Configs) (line : Bytes) : Option Configs :=
  if line = [] then some configs
  else if leftOut (strim line) then some configs
  else (splitLine 61 (strim line)).map fun kv => Function.update configs kv.1 (some kv.2)

/-- `load`: the configuration and the result. -/
def load (configs : Configs) : Option Bytes → Option (Configs × Bool)
  | none => some (configs, false)
  | some text => ((getlines text).foldlM loadLine configs).map fun configs => (configs, true)

/-- `get_string`. -/
def getString (configs : Configs) (key defaultStr : Bytes) : Bytes :=
  (configs key).getD defaultStr

/-! ## The file -/

/-- A key that a line can hold. -/
structure Key where
  bytes : Bytes
  ne_nil : bytes ≠ []
  trimmed : Trimmed bytes
  no_sep : (61 : UInt8) ∉ bytes
  no_newline : (10 : UInt8) ∉ bytes
  kept : leftOut bytes = false

/-- A value that a line can hold. -/
structure Value where
  bytes : Bytes
  trimmed : Trimmed bytes
  no_newline : (10 : UInt8) ∉ bytes

/-- A comment or a section header. -/
structure Note where
  bytes : Bytes
  left_out : leftOut bytes = true
  no_newline : (10 : UInt8) ∉ bytes

/-- What a line is written for, with the spaces that are written around its parts. -/
inductive Item where
  | pair (indent : Nat) (key : Key) (before behind : Nat) (value : Value) (trail : Nat)
  | blank (width : Nat)
  | note (indent : Nat) (text : Note)

namespace Item

/-- The line. -/
def line : Item → Bytes
  | pair indent key before behind value trail =>
    spaces indent ++
      (key.bytes ++ spaces before ++ 61 :: (spaces behind ++ (value.bytes ++ spaces trail)))
  | blank width => spaces width
  | note indent text => spaces indent ++ text.bytes

/-- The value that the line gives a key. -/
def value? (k : Bytes) : Item → Option Bytes
  | pair _ key _ _ value _ => if key.bytes = k then some value.bytes else none
  | blank _ => none
  | note _ _ => none

/-- The index of the '=', and the one behind it, is an `int`. -/
def Short : Item → Prop
  | pair _ key before _ _ _ => key.bytes.length + before + 1 < 2 ^ 31
  | blank _ => True
  | note _ _ => True

end Item

/-- The lines one after the other, the last one with or without its newline. -/
def fileText (newline : Bool) (items : List Item) : Bytes :=
  List.intercalate [10] (items.map Item.line) ++ if newline then [10] else []

/-- The value of the last occurrence of a key. -/
def lastValue (items : List Item) (key : Bytes) : Option Bytes :=
  items.reverse.findSome? (Item.value? key)

/-- The file is loaded, and every key has its last value, or the default. -/
def RoundTrip (newline : Bool) (items : List Item) : Prop :=
  ∃ configs, load (fun _ => none) (some (fileText newline items)) = some (configs, true) ∧
    ∀ key ≠ [], ∀ defaultStr,
      getString configs key defaultStr = (lastValue items key).getD defaultStr

/-! ## Lines -/

theorem newline_notMem_spaces (n : Nat) : (10 : UInt8) ∉ spaces n := by
  intro hmem
  exact absurd (List.eq_of_mem_replicate hmem) (by decide)

theorem newline_notMem_line (item : Item) : (10 : UInt8) ∉ item.line := by
  cases item with
  | pair indent key before behind value trail =>
    simp [Item.line, newline_notMem_spaces, key.no_newline, value.no_newline]
  | blank width => exact newline_notMem_spaces width
  | note indent text => simp [Item.line, newline_notMem_spaces, text.no_newline]

theorem getlines_append {line : Bytes} (h : (10 : UInt8) ∉ line) (text : Bytes) :
    getlines (line ++ 10 :: text) = line :: getlines text := by
  induction line with
  | nil => rw [List.nil_append, getlines, if_pos rfl]
  | cons b line ih =>
    rw [List.mem_cons, not_or] at h
    rw [List.cons_append, getlines, if_neg (Ne.symm h.1), ih h.2]

theorem getlines_of_notMem {line : Bytes} (h : (10 : UInt8) ∉ line) :
    getlines line = if line = [] then [] else [line] := by
  induction line with
  | nil => rfl
  | cons b line ih =>
    rw [List.mem_cons, not_or] at h
    rw [getlines, if_neg (Ne.symm h.1), ih h.2, if_neg (List.cons_ne_nil b line)]
    cases line with
    | nil => rfl
    | cons c line => rfl

/-- The empty line that `getlines` may lose is one that `load` skips. -/
theorem foldlM_getlines {lines : List Bytes} (h : ∀ line ∈ lines, (10 : UInt8) ∉ line)
    (newline : Bool) (configs : Configs) :
    (getlines (List.intercalate [10] lines ++ if newline then [10] else [])).foldlM
      loadLine configs = lines.foldlM loadLine configs := by
  induction lines generalizing configs with
  | nil => cases newline <;> rfl
  | cons line lines ih =>
    have hline := h line List.mem_cons_self
    cases lines with
    | nil =>
      rw [List.intercalate_singleton]
      cases newline with
      | true =>
        rw [if_pos rfl, getlines_append hline]
        rfl
      | false =>
        rw [if_neg Bool.false_ne_true, List.append_nil, getlines_of_notMem hline]
        split
        · next hnil =>
          subst hnil
          rfl
        · rfl
    | cons next lines =>
      have hrest := ih fun line hmem => h line (List.mem_cons_of_mem _ hmem)
      rw [List.intercalate_cons_cons, List.append_assoc, List.append_assoc, List.singleton_append,
        getlines_append hline, List.foldlM_cons, List.foldlM_cons]
      exact congrArg (loadLine configs line >>= ·) (funext hrest)

/-- `load` goes through the lines that were written. -/
theorem load_fileText (newline : Bool) (items : List Item) (configs : Configs) :
    load configs (some (fileText newline items)) =
      ((items.map Item.line).foldlM loadLine configs).map fun configs => (configs, true) := by
  rw [load, fileText, foldlM_getlines]
  intro line hmem
  obtain ⟨item, -, rfl⟩ := List.mem_map.mp hmem
  exact newline_notMem_line item

/-! ## One line -/

/-- Whether a trimmed line is left out is seen at its first character. -/
theorem leftOut_strim {s : Bytes} (h : s.head? ≠ some 32) : leftOut (strim s) = leftOut s := by
  rw [leftOut, leftOut, List.headD_eq_head?_getD, List.headD_eq_head?_getD, head?_strim h]

theorem loadLine_blank (configs : Configs) (width : Nat) :
    ∃ after, loadLine configs (Item.blank width).line = some after ∧
      ∀ key ≠ [], after key = configs key := by
  by_cases hnil : (Item.blank width).line = []
  · exact ⟨configs, by rw [loadLine, if_pos hnil], fun _ _ => rfl⟩
  · -- the trimmed line has no '=': it puts the empty string under the empty key
    have hsplit : splitLine 61 [] = some ([], []) := by decide
    refine ⟨Function.update configs [] (some []), ?_, fun key hkey =>
      Function.update_of_ne hkey _ _⟩
    rw [loadLine, if_neg hnil, Item.line, strim_spaces, hsplit]
    rfl

theorem loadLine_note (configs : Configs) (indent : Nat) (text : Note) :
    loadLine configs (Item.note indent text).line = some configs := by
  have hhead : text.bytes.head? ≠ some 32 := by
    intro hspace
    have hout := text.left_out
    rw [leftOut, List.headD_eq_head?_getD, hspace] at hout
    exact absurd hout (by decide)
  rw [loadLine, Item.line, strim_spaces_append, leftOut_strim hhead, text.left_out]
  split <;> rfl

/-- What is left of the line of a pair when it is trimmed. -/
theorem strim_pair (indent : Nat) (key : Key) (before behind : Nat) (value : Value) (trail : Nat) :
    ∃ rest, strim (Item.pair indent key before behind value trail).line =
        key.bytes ++ spaces before ++ 61 :: rest ∧ strim rest = value.bytes := by
  refine ⟨(spaces behind ++ (value.bytes ++ spaces trail)).rdropWhile (· == 32), ?_, ?_⟩
  · have hhead : (key.bytes ++ spaces before).head? ≠ some 32 := by
      rw [List.head?_append_of_ne_nil _ key.ne_nil]
      exact key.trimmed.1
    rw [Item.line, strim_spaces_append]
    exact strim_append_cons (List.append_ne_nil_of_left_ne_nil key.ne_nil _) hhead (by decide) _
  · rw [strim_rdropWhile, strim_pad value.trimmed]

/-- The line of a pair is cut, and a pair of trimmed parts goes into the map. -/
theorem loadLine_pair (configs : Configs) (indent : Nat) (key : Key) (before behind : Nat)
    (value : Value) (trail : Nat) : ∃ rest, strim rest = value.bytes ∧
      loadLine configs (Item.pair indent key before behind value trail).line =
        (splitLine 61 (key.bytes ++ spaces before ++ 61 :: rest)).map
          fun kv => Function.update configs kv.1 (some kv.2) := by
  obtain ⟨rest, hline, hrest⟩ := strim_pair indent key before behind value trail
  refine ⟨rest, hrest, ?_⟩
  have hne : (Item.pair indent key before behind value trail).line ≠ [] := by
    simp [Item.line]
  have hkept : leftOut (key.bytes ++ spaces before ++ 61 :: rest) = false := by
    rw [leftOut, List.headD_eq_head?_getD, List.append_assoc,
      List.head?_append_of_ne_nil _ key.ne_nil, ← List.headD_eq_head?_getD]
    exact key.kept
  rw [loadLine, if_neg hne, hline, hkept, if_neg Bool.false_ne_true]

theorem sep_notMem_key (key : Key) (before : Nat) :
    (61 : UInt8) ∉ key.bytes ++ spaces before := by
  intro hmem
  rcases List.mem_append.mp hmem with hmem | hmem
  · exact key.no_sep hmem
  · exact absurd (List.eq_of_mem_replicate hmem) (by decide)

theorem length_key_spaces (key : Key) (before : Nat) :
    (key.bytes ++ spaces before).length = key.bytes.length + before := by
  rw [List.length_append, spaces, List.length_replicate]

/-- A short line changes the value of its own key only. -/
theorem loadLine_short (configs : Configs) {item : Item} (hshort : item.Short) :
    ∃ after, loadLine configs item.line = some after ∧
      ∀ key ≠ [], after key = (item.value? key).or (configs key) := by
  cases item with
  | pair indent key before behind value trail =>
    obtain ⟨rest, hrest, hline⟩ := loadLine_pair configs indent key before behind value trail
    have hlen : (key.bytes ++ spaces before).length + 1 < 2 ^ 31 := by
      rw [length_key_spaces]
      exact hshort
    have hkey : strim (key.bytes ++ spaces before) = key.bytes := by
      rw [strim_append_spaces, strim_of_trimmed key.trimmed]
    rw [splitLine_append (sep_notMem_key key before) hlen, hkey, hrest, Option.map_some] at hline
    refine ⟨_, hline, fun k _ => ?_⟩
    by_cases hk : key.bytes = k
    · subst hk
      rw [Function.update_self, Item.value?, if_pos rfl, Option.some_or]
    · rw [Function.update_of_ne (Ne.symm hk), Item.value?, if_neg hk, Option.none_or]
  | blank width => exact loadLine_blank configs width
  | note indent text => exact ⟨configs, loadLine_note configs indent text, fun _ _ => rfl⟩

/-- A line that is not short does not put the value under the key. -/
theorem loadLine_long (configs : Configs) {item : Item} (hlong : ¬ item.Short) :
    ∃ key ≠ [], ∃ value, item.value? key = some value ∧
      ∀ after, loadLine configs item.line = some after → configs key = none →
        after key ≠ some value := by
  cases item with
  | pair indent key before behind value trail =>
    refine ⟨key.bytes, key.ne_nil, value.bytes, if_pos rfl, ?_⟩
    intro after hafter hnone hvalue
    obtain ⟨rest, hrest, hline⟩ := loadLine_pair configs indent key before behind value trail
    rw [hline] at hafter
    obtain ⟨kv, hsplit, rfl⟩ := Option.map_eq_some_iff.mp hafter
    -- the value must be the second part, cut off behind the key
    have hkey : key.bytes = kv.1 := by
      by_contra hne
      rw [Function.update_of_ne hne, hnone] at hvalue
      cases hvalue
    rw [hkey, Function.update_self, Option.some.injEq] at hvalue
    have hlen : 2 ^ 31 ≤ (key.bytes ++ spaces before).length + 1 := by
      rw [length_key_spaces]
      exact Nat.not_lt.mp hlong
    rcases splitLine_long (by decide) (sep_notMem_key key before) hlen hsplit with hmem | hcount
    · exact key.no_sep (hkey ▸ hmem)
    · rw [hvalue, ← hrest, count_strim (by decide)] at hcount
      omega
  | blank width => exact absurd trivial hlong
  | note indent text => exact absurd trivial hlong

/-! ## The file -/

theorem lastValue_cons (item : Item) (items : List Item) (key : Bytes) :
    lastValue (item :: items) key = (lastValue items key).or (item.value? key) := by
  rw [lastValue, lastValue, List.reverse_cons, List.findSome?_append, List.findSome?_singleton]

/-- What the loop has done after short lines. -/
theorem foldlM_loadLine_short (configs : Configs) {items : List Item}
    (hshort : ∀ item ∈ items, item.Short) :
    ∃ after, (items.map Item.line).foldlM loadLine configs = some after ∧
      ∀ key ≠ [], after key = (lastValue items key).or (configs key) := by
  induction items generalizing configs with
  | nil => exact ⟨configs, rfl, fun _ _ => rfl⟩
  | cons item items ih =>
    obtain ⟨next, hline, hnext⟩ := loadLine_short configs (hshort item List.mem_cons_self)
    obtain ⟨after, hlines, hafter⟩ := ih next fun i hi => hshort i (List.mem_cons_of_mem _ hi)
    refine ⟨after, ?_, fun key hkey => ?_⟩
    · rw [List.map_cons, List.foldlM_cons, hline]
      exact hlines
    · rw [hafter key hkey, hnext key hkey, lastValue_cons, Option.or_assoc]

theorem roundTrip_of_short (newline : Bool) {items : List Item}
    (hshort : ∀ item ∈ items, item.Short) : RoundTrip newline items := by
  obtain ⟨configs, hlines, hvalues⟩ := foldlM_loadLine_short (fun _ => none) hshort
  refine ⟨configs, ?_, fun key hkey defaultStr => ?_⟩
  · rw [load_fileText, hlines, Option.map_some]
  · rw [getString, hvalues key hkey, Option.or_none]

/-- A file of one line that is not short does not make the round trip. -/
theorem short_of_roundTrip (newline : Bool) {item : Item} (h : RoundTrip newline [item]) :
    item.Short := by
  by_contra hlong
  obtain ⟨configs, hload, hvalues⟩ := h
  obtain ⟨key, hkey, value, hvalue, hnever⟩ := loadLine_long (fun _ => none) hlong
  have hline : loadLine (fun _ => none) item.line = some configs := by
    rw [load_fileText, List.map_singleton, List.foldlM_cons] at hload
    obtain ⟨c, hc, heq⟩ := Option.map_eq_some_iff.mp hload
    obtain ⟨d, hd, hnil⟩ := Option.bind_eq_some_iff.mp hc
    obtain rfl := Option.some.inj hnil
    rw [hd, (Prod.mk.inj heq).1]
  have hlast : lastValue [item] key = some value := by
    rw [lastValue_cons, hvalue]
    rfl
  apply hnever configs hline rfl
  -- a default that is not the value shows that the key is there
  have hget := hvalues key hkey (0 :: value)
  rw [hlast, Option.getD_some, getString] at hget
  cases hkeyed : configs key with
  | none =>
    rw [hkeyed, Option.getD_none] at hget
    exact absurd hget (List.cons_ne_self 0 value)
  | some v =>
    rw [hkeyed, Option.getD_some] at hget
    rw [hget]

/-- **When the configuration makes the round trip.** For every list of pairs, blank lines, comments
and section headers, with any spaces around their parts, and with or without a newline at the end:
the file of these lines, and the file of any of them in the same order, is loaded and gives back the
last value of every key and the default for every other, if and only if each '=' is written before
position 2^31 - 1 of its line, the indent not counted. -/
theorem conf_round_trip_iff (newline : Bool) (items : List Item) :
    (∀ part, part.Sublist items → RoundTrip newline part) ↔ ∀ item ∈ items, item.Short := by
  constructor
  · intro h item hmem
    exact short_of_roundTrip newline (h [item] (List.singleton_sublist.mpr hmem))
  · intro hshort part hpart
    exact roundTrip_of_short newline fun item hmem => hshort item (hpart.subset hmem)

example : (load (fun _ => none) (some (ascii "# net\n  Port = 80 \n\nPort=8080"))).map
    (fun r => (getString r.1 (ascii "Port") [], getString r.1 (ascii "Net") (ascii "on"))) =
      some (ascii "8080", ascii "on") := by
  decide

/-- A key of `n` letters. -/
def longKey (n : Nat) (hn : 0 < n) : Key where
  bytes := List.replicate n 97
  ne_nil := fun hnil => hn.ne' ((List.replicate_eq_nil_iff _).mp hnil)
  trimmed := by
    rw [Trimmed, List.head?_replicate, List.getLast?_replicate, if_neg hn.ne']
    decide
  no_sep := fun hmem => absurd (List.eq_of_mem_replicate hmem) (by decide)
  no_newline := fun hmem => absurd (List.eq_of_mem_replicate hmem) (by decide)
  kept := by
    rw [leftOut, List.headD_eq_head?_getD, List.head?_replicate, if_neg hn.ne']
    decide

/-- The value 1. -/
def shortValue : Value where
  bytes := [49]
  trimmed := by decide
  no_newline := by decide

theorem longKey_lost {n : Nat} (hn : 0 < n) (hlong : 2 ^ 31 ≤ n + 1) :
    ¬ RoundTrip true [.pair 0 (longKey n hn) 0 0 shortValue 0] := by
  intro h
  have hshort : (longKey n hn).bytes.length + 0 + 1 < 2 ^ 31 := short_of_roundTrip true h
  rw [longKey, List.length_replicate] at hshort
  omega

/-- A line whose '=' is at position 2^31, which is a negative `int`: the value would be cut from a
position behind the end of the line, and `substr` throws. -/
theorem conf_long_key_lost :
    ¬ RoundTrip true [.pair 0 (longKey (2 ^ 31) (Nat.two_pow_pos 31)) 0 0 shortValue 0] :=
  longKey_lost (Nat.two_pow_pos 31) (Nat.le_succ _)

end Conf
end Mgx
