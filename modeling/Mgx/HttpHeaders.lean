import Mgx.HttpReader
import Mgx.HttpResponse
import Mgx.Strings

/-
  The header lines that are written, and the parser of header lines.

  Writer and parser were written independently: the writer puts name, colon, space
  and value on a line, the parser cuts the block at every CR and LF, a line at its
  first colon, and trims both parts. The position of the colon is kept in an `int`.

  Correspondence (C++ ↔ Lean), `http/mgx_http_socket.cpp`:
    `int index = line.find_first_of(':')`        ↔ `colonIndex`
    `line.substr` twice                          ↔ `splitHeaderInt`
    `http_parse_request_head` with that `int`    ↔ `httpParseRequestHeadInt`
    the headers `http_write_response` writes     ↔ `writeHeader`, in any order

  The program is modelled with `httpParseRequestHead` (`Mgx.HttpRequest`), whose
  positions have no bound. `httpParseRequestHeadInt` is the same function with the
  `int`, and equal to it on a block shorter than 2^31 (`httpParseRequestHeadInt_eq`).

  What is proved: `header_round_trip_iff`. The block written for a map is parsed back
  into the same map exactly when no name is so long that the index of its colon, or
  the index behind it, is no `int`. On what the reader returns the `int` changes
  nothing (`httpParseRequestHeadInt_read`).
-/
namespace Mgx
open CMem

/-! ## The parser on lines of any length -/

/-- `line.find_first_of(':')`, taken to `int`. -/
def colonIndex (line : Bytes) : Int :=
  Int.bmod ((line.findIdx? (· == 58)).getD npos : Nat) (2 ^ 32)

/-- The key and the value of a line; `none` where `index + 1` overflows or `substr` throws. A
negative `index` is a count, or a position, larger than any string. -/
def splitHeaderInt (line : Bytes) : Option (Bytes × Bytes) :=
  let index := colonIndex line
  let key := if index < 0 then line else line.take index.toNat
  if index + 1 = 2 ^ 31 ∨ index + 1 < 0 ∨ line.length < index + 1 then none
  else some (strim key, strim ((line.drop (index + 1).toNat).take (line.length - key.length)))

/-- `headers[strim(key)] = strim(val)`. -/
def putHeaderInt (headers : Headers) (line : Bytes) : Option Headers :=
  (splitHeaderInt line).map fun kv => Function.update headers kv.1 (some kv.2)

/-- `http_parse_request_head` on blocks of any length. -/
def httpParseRequestHeadInt (requestHead : Bytes) : Option Headers :=
  (tokens (crlf.contains ·) (cstr requestHead)).foldlM putHeaderInt (fun _ => none)

/-! ## One line -/

/-- It is the cut that the configuration file has, at another character. -/
theorem splitHeaderInt_eq_splitLine (line : Bytes) : splitHeaderInt line = splitLine 58 line := rfl

/-- A line splits at its first colon when the index behind that is an `int`. -/
theorem splitHeaderInt_colon {name rest : Bytes} (hname : (58 : UInt8) ∉ name)
    (hlen : name.length + 1 < 2 ^ 31) :
    splitHeaderInt (name ++ 58 :: rest) = some (strim name, strim rest) := by
  rw [splitHeaderInt_eq_splitLine]
  exact splitLine_append hname hlen

/-- Shorter lines do not need the `int`. -/
theorem splitHeaderInt_eq {line : Bytes} (hlen : line.length < 2 ^ 31) :
    splitHeaderInt line = some (splitHeader line) := by
  by_cases hcolon : (58 : UInt8) ∈ line
  · obtain ⟨name, rest, rfl, hname⟩ := List.eq_append_cons_of_mem hcolon
    rw [List.length_append, List.length_cons] at hlen
    rw [splitHeaderInt_colon hname (by omega)]
    have hval : (name ++ 58 :: rest).drop (name.length + 1) = rest := by
      rw [List.drop_length_add_append, List.drop_one, List.tail_cons]
    simp only [splitHeader, takeWhile_append_cons hname, hval]
  · have hindex : colonIndex line = -1 := findFirstOf_of_notMem hcolon
    have hkey : line.takeWhile (· != 58) = line := by
      rw [List.takeWhile_eq_self_iff]
      intro b hb
      rw [bne_iff_ne]
      intro heq
      exact hcolon (heq ▸ hb)
    -- `substr(index + 1, 0)`: all of the line is the key
    simp only [splitHeaderInt, hindex, splitHeader, hkey]
    rw [if_neg (by omega), if_pos (by omega), Nat.sub_self, List.take_zero,
      List.drop_of_length_le (Nat.le_succ _)]

/-- Where the line has a colon, a key with a colon or with an `int` behind it comes out. -/
theorem splitHeaderInt_key {line : Bytes} {kv : Bytes × Bytes} (hcolon : (58 : UInt8) ∈ line)
    (h : splitHeaderInt line = some kv) : (58 : UInt8) ∈ kv.1 ∨ kv.1.length + 1 < 2 ^ 31 := by
  have hrange : -2 ^ 31 ≤ colonIndex line ∧ colonIndex line < 2 ^ 31 := bmod_range _
  simp only [splitHeaderInt] at h
  split at h
  · cases h
  · next hin =>
    obtain rfl := Option.some.inj h
    by_cases hneg : colonIndex line < 0
    · left
      rw [if_pos hneg]
      exact mem_strim hcolon (by decide)
    · right
      rw [if_neg hneg]
      have hle := length_strim_le (line.take (colonIndex line).toNat)
      rw [List.length_take] at hle
      dsimp only
      omega

/-! ## The block -/

/-- Shorter blocks do not need the `int`. -/
theorem httpParseRequestHeadInt_eq {head : Bytes} (hlen : head.length < 2 ^ 31) :
    httpParseRequestHeadInt head = some (httpParseRequestHead head) := by
  have hput : ∀ (ls : List Bytes) (m : Headers), (∀ l ∈ ls, l.length < 2 ^ 31) →
      ls.foldlM putHeaderInt m = some (ls.foldl putHeader m) := by
    intro ls
    induction ls with
    | nil => intro m _; rfl
    | cons l ls ih =>
      intro m h
      rw [List.foldlM_cons, putHeaderInt, splitHeaderInt_eq (h l List.mem_cons_self)]
      exact ih _ fun x hx => h x (List.mem_cons_of_mem l hx)
  apply hput
  intro l hl
  have htoken : l.length ≤ (cstr head).length := (sublist_of_mem_tokens hl).length_le
  have hcut : (cstr head).length ≤ head.length := (List.takeWhile_prefix _).length_le
  omega

/-- So on what the reader returns, and the handler parses, it is the parser of the handler. -/
theorem httpParseRequestHeadInt_read {behind : UInt8} {l rest : List SockItem} {head : Bytes}
    (h : httpReadRequestHead behind l = .done head rest) :
    httpParseRequestHeadInt head = some (httpParseRequestHead head) := by
  apply httpParseRequestHeadInt_eq
  exact Nat.lt_of_le_of_lt (httpReadLoop_length h) (by decide)

/-- The header may stand in the map: a name and a value that a line can hold. -/
structure HeaderField (h : Bytes × Bytes) : Prop where
  name_ne : h.1 ≠ []
  colon : (58 : UInt8) ∉ h.1
  name : Text h.1
  value : Text h.2
  name_trimmed : Trimmed h.1
  value_trimmed : Trimmed h.2

/-- `hs` goes through the map, in some order. -/
def Enumerates (hs : List (Bytes × Bytes)) (m : Headers) : Prop :=
  ∀ name value, (name, value) ∈ hs ↔ m name = some value

/-- A header line without its CR LF. -/
def writtenLine (h : Bytes × Bytes) : Bytes := h.1 ++ 58 :: 32 :: h.2

theorem writeHeader_eq (h : Bytes × Bytes) : writeHeader h = writtenLine h ++ crlf := by
  rw [writeHeader, writtenLine, show ascii ": " = [58, 32] by decide]
  simp

/-- The block is cut into its lines. -/
theorem httpParseRequestHeadInt_written {hs : List (Bytes × Bytes)}
    (hfield : ∀ h ∈ hs, HeaderField h) :
    httpParseRequestHeadInt (hs.flatMap writeHeader) =
      (hs.map writtenLine).foldlM putHeaderInt fun _ => none := by
  have hblock : hs.flatMap writeHeader = (hs.map writtenLine).flatMap (· ++ crlf) := by
    rw [List.flatMap_map]
    exact congrArg (hs.flatMap ·) (funext writeHeader_eq)
  have htext : ∀ l ∈ hs.map writtenLine, Text l := by
    intro l hl
    obtain ⟨h, hh, rfl⟩ := List.mem_map.mp hl
    have hvalue : Text (32 :: h.2) := by
      intro b hb
      rcases List.mem_cons.mp hb with rfl | hb
      · decide
      · exact (hfield h hh).value b hb
    exact text_headerLine (h := (h.1, 32 :: h.2)) (hfield h hh).name hvalue
  have hlines : ∀ l ∈ hs.map writtenLine, l ≠ [] ∧ ∀ b ∈ l, crlf.contains b = false := by
    intro l hl
    refine ⟨?_, fun b hb => ?_⟩
    · obtain ⟨h, -, rfl⟩ := List.mem_map.mp hl
      simp [writtenLine]
    · obtain ⟨hcr, hlf, -⟩ := htext l hl b hb
      exact crlf_contains_of_ne hcr hlf
  have hnul : (0 : UInt8) ∉ (hs.map writtenLine).flatMap (· ++ crlf) := by
    rw [List.mem_flatMap]
    rintro ⟨l, hl, h0⟩
    rcases List.mem_append.mp h0 with h0 | h0
    · exact (htext l hl).nul_notMem h0
    · revert h0
      decide
  have hdelim : ∀ d ∈ crlf, crlf.contains d = true := fun d hd => List.contains_iff_mem.mpr hd
  rw [httpParseRequestHeadInt, hblock, (cstr_eq_self_iff _).mpr hnul,
    tokens_flatMap_append (by decide) hdelim _ hlines]

/-- A line of a name that is not too long is put under that name. -/
theorem putHeaderInt_written {h : Bytes × Bytes} (hfield : HeaderField h)
    (hlen : h.1.length + 1 < 2 ^ 31) (m : Headers) :
    putHeaderInt m (writtenLine h) = some (Function.update m h.1 (some h.2)) := by
  rw [putHeaderInt, writtenLine, splitHeaderInt_colon hfield.colon hlen, strim_space_cons,
    strim_of_trimmed hfield.name_trimmed, strim_of_trimmed hfield.value_trimmed, Option.map_some]

/-- The lines of headers of `m` make `m` on their names. -/
theorem foldlM_putHeaderInt_written {m : Headers} {hs : List (Bytes × Bytes)}
    (hfield : ∀ h ∈ hs, HeaderField h) (hlen : ∀ h ∈ hs, h.1.length + 1 < 2 ^ 31)
    (hm : ∀ h ∈ hs, m h.1 = some h.2) (m₀ : Headers) :
    (hs.map writtenLine).foldlM putHeaderInt m₀ =
      some fun name => if name ∈ hs.map Prod.fst then m name else m₀ name := by
  induction hs generalizing m₀ with
  | nil => simp
  | cons h hs ih =>
    have ih := ih (fun x hx => hfield x (List.mem_cons_of_mem h hx))
      (fun x hx => hlen x (List.mem_cons_of_mem h hx))
      (fun x hx => hm x (List.mem_cons_of_mem h hx)) (Function.update m₀ h.1 (some h.2))
    have hput := putHeaderInt_written (hfield h List.mem_cons_self) (hlen h List.mem_cons_self) m₀
    rw [List.map_cons, List.foldlM_cons, hput]
    refine ih.trans (congrArg some (funext fun name => ?_))
    by_cases hname : name = h.1
    · subst hname
      rw [List.map_cons, if_pos List.mem_cons_self, Function.update_self,
        hm h List.mem_cons_self]
      exact ite_self _
    · have hmem : name ∈ hs.map Prod.fst ↔ name ∈ (h :: hs).map Prod.fst := by
        rw [List.map_cons, List.mem_cons, or_iff_right hname]
      rw [Function.update_of_ne hname]
      exact if_congr hmem rfl rfl

/-- Every name in the map has a colon, or an `int` behind it. -/
theorem foldlM_putHeaderInt_names {ls : List Bytes} (hcolon : ∀ l ∈ ls, (58 : UInt8) ∈ l)
    {m₀ m : Headers} (h : ls.foldlM putHeaderInt m₀ = some m) {name : Bytes}
    (hname : m name ≠ none) :
    m₀ name ≠ none ∨ (58 : UInt8) ∈ name ∨ name.length + 1 < 2 ^ 31 := by
  induction ls generalizing m₀ with
  | nil =>
    obtain rfl := Option.some.inj h
    exact .inl hname
  | cons l ls ih =>
    rw [List.foldlM_cons] at h
    obtain ⟨m₁, hput, hrest⟩ := Option.bind_eq_some_iff.mp h
    rcases ih (fun x hx => hcolon x (List.mem_cons_of_mem l hx)) hrest with hin | hgood
    · obtain ⟨kv, hsplit, rfl⟩ := Option.map_eq_some_iff.mp hput
      by_cases hkey : name = kv.1
      · subst hkey
        exact .inr (splitHeaderInt_key (hcolon l List.mem_cons_self) hsplit)
      · rw [Function.update_of_ne hkey] at hin
        exact .inl hin
    · exact .inr hgood

/-- A name that comes back is not too long. -/
theorem name_length_of_parsed {hs : List (Bytes × Bytes)} (hfield : ∀ h ∈ hs, HeaderField h)
    {m : Headers} (hparse : httpParseRequestHeadInt (hs.flatMap writeHeader) = some m)
    {h : Bytes × Bytes} (hh : h ∈ hs) (hm : m h.1 ≠ none) : h.1.length + 1 < 2 ^ 31 := by
  rw [httpParseRequestHeadInt_written hfield] at hparse
  have hcolon : ∀ l ∈ hs.map writtenLine, (58 : UInt8) ∈ l := by
    intro l hl
    obtain ⟨x, -, rfl⟩ := List.mem_map.mp hl
    exact List.mem_append_right _ List.mem_cons_self
  rcases foldlM_putHeaderInt_names hcolon hparse hm with hnone | hin | hlen
  · exact absurd rfl hnone
  · exact absurd hin (hfield h hh).colon
  · exact hlen

/-- **When the header block makes the round trip.** For every map of headers, whatever the order in
which it is gone through: the lines written for it are parsed into the same map if and only if every
name is shorter than 2^31 - 1 bytes. -/
theorem header_round_trip_iff (m : Headers) (hs : List (Bytes × Bytes)) (hm : Enumerates hs m)
    (hfield : ∀ h ∈ hs, HeaderField h) :
    httpParseRequestHeadInt (hs.flatMap writeHeader) = some m ↔
      ∀ h ∈ hs, h.1.length < 2 ^ 31 - 1 := by
  have hval : ∀ h ∈ hs, m h.1 = some h.2 := fun h hh => (hm h.1 h.2).mp hh
  constructor
  · intro hparse h hh
    have hlen := name_length_of_parsed hfield hparse hh (by rw [hval h hh]; exact nofun)
    omega
  · intro hlen
    have hshort : ∀ h ∈ hs, h.1.length + 1 < 2 ^ 31 := by
      intro h hh
      have := hlen h hh
      omega
    rw [httpParseRequestHeadInt_written hfield, foldlM_putHeaderInt_written hfield hshort hval]
    refine congrArg some (funext fun name => ?_)
    split
    · rfl
    · next hnone =>
      -- a name that has no line has no value
      cases hname : m name with
      | none => rfl
      | some value => exact absurd (List.mem_map_of_mem ((hm name value).mpr hname)) hnone

theorem enumerates_nil : Enumerates [] fun _ => none := by
  intro name value
  exact iff_of_false List.not_mem_nil (Option.some_ne_none value).symm

/-- A new name may come anywhere in the order. -/
theorem Enumerates.cons {hs : List (Bytes × Bytes)} {m : Headers} (hm : Enumerates hs m)
    {h : Bytes × Bytes} (hnew : m h.1 = none) :
    Enumerates (h :: hs) (Function.update m h.1 (some h.2)) := by
  intro name value
  rw [List.mem_cons, hm name value]
  by_cases hname : name = h.1
  · subst hname
    rw [Function.update_self, hnew, Option.some.injEq, Prod.ext_iff,
      or_iff_left (Option.some_ne_none value).symm]
    exact ⟨fun heq => heq.2.symm, fun heq => ⟨rfl, heq.symm⟩⟩
  · rw [Function.update_of_ne hname]
    exact or_iff_right fun heq => hname (congrArg Prod.fst heq)

theorem enumerates_singleton (h : Bytes × Bytes) :
    Enumerates [h] (Function.update (fun _ => none) h.1 (some h.2)) :=
  enumerates_nil.cons rfl

/-- Three headers, in an order that is neither that of the names nor that of their lengths. -/
def threeHeaders : List (Bytes × Bytes) :=
  [(ascii "Host", ascii "mgx:80"), (ascii "Connection", ascii "keep-alive"), (ascii "Accept", [])]

/-- The map that holds them. -/
def threeHeadersMap : Headers :=
  threeHeaders.foldr (fun h m => Function.update m h.1 (some h.2)) fun _ => none

theorem headerField_iff (h : Bytes × Bytes) : HeaderField h ↔
    h.1 ≠ [] ∧ (58 : UInt8) ∉ h.1 ∧ Text h.1 ∧ Text h.2 ∧ Trimmed h.1 ∧ Trimmed h.2 := by
  constructor
  · intro h
    exact ⟨h.name_ne, h.colon, h.name, h.value, h.name_trimmed, h.value_trimmed⟩
  · intro h
    exact ⟨h.1, h.2.1, h.2.2.1, h.2.2.2.1, h.2.2.2.2.1, h.2.2.2.2.2⟩

instance (h : Bytes × Bytes) : Decidable (HeaderField h) :=
  decidable_of_iff _ (headerField_iff h).symm

theorem header_round_trip_iff_host :
    httpParseRequestHeadInt (threeHeaders.flatMap writeHeader) = some threeHeadersMap := by
  have hmap : Enumerates threeHeaders threeHeadersMap :=
    ((enumerates_nil.cons rfl).cons (by decide +kernel)).cons (by decide +kernel)
  have hfield : ∀ h ∈ threeHeaders, HeaderField h := by decide +kernel
  exact (header_round_trip_iff threeHeadersMap threeHeaders hmap hfield).mpr (by decide +kernel)

/-- A header with a name of `n` letters and no value. -/
def longHeader (n : Nat) : Bytes × Bytes := (List.replicate n 97, [])

theorem headerField_longHeader {n : Nat} (hn : 0 < n) : HeaderField (longHeader n) := by
  have hletter : ∀ b ∈ List.replicate n (97 : UInt8), b = 97 := fun b hb =>
    List.eq_of_mem_replicate hb
  have hname : Text (List.replicate n (97 : UInt8)) := by
    intro b hb
    rw [hletter b hb]
    decide
  have htrimmed : Trimmed (List.replicate n (97 : UInt8)) := by
    rw [Trimmed, List.head?_replicate, List.getLast?_replicate, if_neg hn.ne']
    decide
  have hempty : Trimmed [] := by decide
  refine ⟨?_, fun hb => ?_, hname, fun b hb => absurd hb List.not_mem_nil, htrimmed, hempty⟩
  · rw [longHeader, Ne, List.replicate_eq_nil_iff]
    exact hn.ne'
  · exact absurd (hletter 58 hb) (by decide)

/-- It does not come back when the name is too long. -/
theorem longHeader_lost {n : Nat} (hn : 2 ^ 31 - 1 ≤ n) :
    httpParseRequestHeadInt ([longHeader n].flatMap writeHeader) ≠
      some (Function.update (fun _ => none) (longHeader n).1 (some (longHeader n).2)) := by
  intro hparse
  have hfield : ∀ h ∈ [longHeader n], HeaderField h := by
    intro h hh
    rw [List.mem_singleton.mp hh]
    exact headerField_longHeader (by omega)
  have hlen := name_length_of_parsed hfield hparse (List.mem_singleton_self _)
    (by rw [Function.update_self]; exact nofun)
  rw [longHeader, List.length_replicate] at hlen
  omega

/-- For the shortest such name the index behind the colon is no `int`. -/
theorem header_round_trip_overflows :
    HeaderField (longHeader (2 ^ 31 - 1)) ∧
    Enumerates [longHeader (2 ^ 31 - 1)] (Function.update (fun _ => none)
      (longHeader (2 ^ 31 - 1)).1 (some (longHeader (2 ^ 31 - 1)).2)) ∧
    httpParseRequestHeadInt ([longHeader (2 ^ 31 - 1)].flatMap writeHeader) ≠
      some (Function.update (fun _ => none)
        (longHeader (2 ^ 31 - 1)).1 (some (longHeader (2 ^ 31 - 1)).2)) :=
  ⟨headerField_longHeader (Nat.sub_pos_of_lt (by decide)), enumerates_singleton _,
    longHeader_lost (Nat.le_refl _)⟩

end Mgx
