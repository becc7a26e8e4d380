import Mathlib.Data.List.Basic

/-
  Messages with a head of lines.

  A message is a start line, fields with a name and a value, an empty line, and a
  content whose length the fields say. Messages follow one another without
  anything in between.

  `readAll` takes a stream apart, `Msg.write` puts a message down. Reading gives
  back what was written; and whatever is read, written again, is the stream.

  Nothing here names a program.
-/
namespace Message

/-! ## Cutting at two bytes -/

section
variable {α : Type} [DecidableEq α] {a b : α}

/-- What stands before and after the first `a`, `b`. -/
def cutAt (a b : α) : List α → Option (List α × List α)
  | [] => none
  | x :: xs =>
    if x = a ∧ xs.head? = some b then some ([], xs.tail)
    else (cutAt a b xs).map fun p => (x :: p.1, p.2)

theorem cutAt_append {xs : List α} (h : a ∉ xs) (ys : List α) :
    cutAt a b (xs ++ a :: b :: ys) = some (xs, ys) := by
  induction xs with
  | nil => simp [cutAt]
  | cons x xs ih =>
    simp only [List.mem_cons, not_or] at h
    have hx : ¬ (x = a ∧ (xs ++ a :: b :: ys).head? = some b) := fun hxa => h.1 hxa.1.symm
    rw [List.cons_append, cutAt, if_neg hx, ih h.2, Option.map_some]

theorem cutAt_sound {xs ys zs : List α} (h : cutAt a b xs = some (ys, zs)) :
    ys ++ a :: b :: zs = xs := by
  induction xs generalizing ys with
  | nil => cases h
  | cons x xs ih =>
    rw [cutAt] at h
    split at h
    · next hx =>
      obtain ⟨rfl, hhead⟩ := hx
      obtain ⟨rfl, rfl⟩ := Prod.mk.inj (Option.some.inj h)
      obtain ⟨y, hy⟩ := List.head?_eq_some_iff.mp hhead
      rw [hy]
      rfl
    · obtain ⟨p, hp, heq⟩ := Option.map_eq_some_iff.mp h
      obtain ⟨rfl, rfl⟩ := Prod.mk.inj heq
      rw [List.cons_append, ih hp]

end

/-! ## Lines and fields -/

/-- A field as a line of the head. -/
def writeField (f : List UInt8 × List UInt8) : List UInt8 := f.1 ++ [58, 32] ++ f.2 ++ [13, 10]

/-- The fields up to the empty line, and what follows it. -/
def readFields : Nat → List UInt8 → Option (List (List UInt8 × List UInt8) × List UInt8)
  | 0, _ => none
  | n + 1, bs =>
    (cutAt 13 10 bs).bind fun p =>
      if p.1 = [] then some ([], p.2)
      else (cutAt 58 32 p.1).bind fun f => (readFields n p.2).map fun q => (f :: q.1, q.2)

/-- A field that is read back: the end of its line and the end of its name are found. -/
structure FieldOk (f : List UInt8 × List UInt8) : Prop where
  name : 13 ∉ f.1 ∧ 58 ∉ f.1
  value : 13 ∉ f.2

theorem readFields_write {fs : List (List UInt8 × List UInt8)} (h : ∀ f ∈ fs, FieldOk f)
    (rest : List UInt8) {n : Nat} (hn : fs.length < n) :
    readFields n (fs.flatMap writeField ++ 13 :: 10 :: rest) = some (fs, rest) := by
  induction fs generalizing n with
  | nil =>
    obtain ⟨n, rfl⟩ := Nat.exists_eq_succ_of_ne_zero (Nat.ne_of_gt hn)
    simp [readFields, cutAt]
  | cons f fs ih =>
    obtain ⟨n, rfl⟩ := Nat.exists_eq_succ_of_ne_zero (Nat.ne_of_gt (Nat.zero_lt_of_lt hn))
    obtain ⟨⟨hname, hcolon⟩, hvalue⟩ := h f List.mem_cons_self
    have hline : 13 ∉ f.1 ++ 58 :: 32 :: f.2 := by
      simp [hname, hvalue]
    have hne : f.1 ++ 58 :: 32 :: f.2 ≠ [] := by simp
    have hwrite : (f :: fs).flatMap writeField ++ 13 :: 10 :: rest =
        (f.1 ++ 58 :: 32 :: f.2) ++ 13 :: 10 :: (fs.flatMap writeField ++ 13 :: 10 :: rest) := by
      simp [writeField]
    rw [hwrite, readFields, cutAt_append hline, Option.bind_some, if_neg hne,
      cutAt_append hcolon, Option.bind_some,
      ih (fun g hg => h g (List.mem_cons_of_mem f hg)) (Nat.lt_of_succ_lt_succ hn)]
    rfl

theorem readFields_sound {n : Nat} {bs rest : List UInt8} {fs : List (List UInt8 × List UInt8)}
    (h : readFields n bs = some (fs, rest)) : fs.flatMap writeField ++ 13 :: 10 :: rest = bs := by
  induction n generalizing bs fs with
  | zero => cases h
  | succ n ih =>
    obtain ⟨⟨line, after⟩, hcut, h⟩ := Option.bind_eq_some_iff.mp h
    have hline := cutAt_sound hcut
    dsimp only at h
    split at h
    · next hempty =>
      obtain ⟨rfl, rfl⟩ := Prod.mk.inj (Option.some.inj h)
      rw [← hline, hempty]
      rfl
    · obtain ⟨f, hf, h⟩ := Option.bind_eq_some_iff.mp h
      obtain ⟨q, hq, heq⟩ := Option.map_eq_some_iff.mp h
      obtain ⟨rfl, rfl⟩ := Prod.mk.inj heq
      rw [← hline, ← ih hq, ← cutAt_sound hf]
      simp [writeField]

/-! ## Messages -/

/-- A message: its start line, its fields and its content. -/
structure Msg where
  start : List UInt8
  fields : List (List UInt8 × List UInt8)
  content : List UInt8
  deriving DecidableEq

/-- Start line, fields and the empty line. -/
def Msg.head (m : Msg) : List UInt8 := m.start ++ [13, 10] ++ m.fields.flatMap writeField ++ [13, 10]

def Msg.write (m : Msg) : List UInt8 := m.head ++ m.content

variable (size : List (List UInt8 × List UInt8) → Option Nat)

/-- The first message, and what follows it; `size` is how many bytes of content the fields say. -/
def readMsg (bs : List UInt8) : Option (Msg × List UInt8) :=
  (cutAt 13 10 bs).bind fun p => (readFields p.2.length p.2).bind fun q =>
    (size q.1).bind fun n =>
      if n ≤ q.2.length then some (⟨p.1, q.1, q.2.take n⟩, q.2.drop n) else none

def readMsgs : Nat → List UInt8 → Option (List Msg)
  | _, [] => some []
  | 0, _ :: _ => none
  | n + 1, b :: bs => (readMsg size (b :: bs)).bind fun p => (readMsgs n p.2).map (p.1 :: ·)

/-- All messages of a stream that ends with one. -/
def readAll (bs : List UInt8) : Option (List Msg) := readMsgs size bs.length bs

/-- A message that is read back. -/
structure Msg.Ok (m : Msg) : Prop where
  start : 13 ∉ m.start
  fields : ∀ f ∈ m.fields, FieldOk f
  size : size m.fields = some m.content.length

theorem length_le_flatMap_writeField (fs : List (List UInt8 × List UInt8)) :
    fs.length ≤ (fs.flatMap writeField).length := by
  induction fs with
  | nil => exact Nat.le_refl 0
  | cons f fs ih =>
    simp only [List.length_cons, List.flatMap_cons, List.length_append, writeField]
    omega

variable {size}

theorem readMsg_write {m : Msg} (h : m.Ok size) (rest : List UInt8) :
    readMsg size (m.write ++ rest) = some (m, rest) := by
  have hwrite : m.write ++ rest =
      m.start ++ 13 :: 10 :: (m.fields.flatMap writeField ++ 13 :: 10 :: (m.content ++ rest)) := by
    simp [Msg.write, Msg.head]
  have hfuel : m.fields.length <
      (m.fields.flatMap writeField ++ 13 :: 10 :: (m.content ++ rest)).length := by
    have hle := length_le_flatMap_writeField m.fields
    simp only [List.length_append, List.length_cons]
    omega
  rw [hwrite, readMsg, cutAt_append h.start, Option.bind_some, readFields_write h.fields _ hfuel,
    Option.bind_some, h.size, Option.bind_some, if_pos (by simp), List.take_left, List.drop_left]

theorem readMsg_sound {bs rest : List UInt8} {m : Msg} (h : readMsg size bs = some (m, rest)) :
    m.write ++ rest = bs := by
  obtain ⟨⟨start, after⟩, hcut, h⟩ := Option.bind_eq_some_iff.mp h
  obtain ⟨⟨fields, data⟩, hfields, h⟩ := Option.bind_eq_some_iff.mp h
  obtain ⟨n, -, h⟩ := Option.bind_eq_some_iff.mp h
  dsimp only at hfields h
  split at h
  · obtain ⟨rfl, rfl⟩ := Prod.mk.inj (Option.some.inj h)
    rw [← cutAt_sound hcut, ← readFields_sound hfields]
    simp [Msg.write, Msg.head]
  · cases h

theorem length_le_flatMap_write (ms : List Msg) : ms.length ≤ (ms.flatMap Msg.write).length := by
  induction ms with
  | nil => exact Nat.le_refl 0
  | cons m ms ih =>
    simp only [List.length_cons, List.flatMap_cons, List.length_append, Msg.write, Msg.head]
    omega

theorem readMsgs_write {ms : List Msg} (h : ∀ m ∈ ms, m.Ok size) {n : Nat} (hn : ms.length ≤ n) :
    readMsgs size n (ms.flatMap Msg.write) = some ms := by
  induction ms generalizing n with
  | nil => cases n <;> rfl
  | cons m ms ih =>
    obtain ⟨n, rfl⟩ := Nat.exists_eq_succ_of_ne_zero (Nat.ne_of_gt (Nat.zero_lt_of_lt hn))
    have hread := readMsg_write (h m List.mem_cons_self) (ms.flatMap Msg.write)
    have hrest := ih (fun m' hm' => h m' (List.mem_cons_of_mem m hm')) (Nat.le_of_succ_le_succ hn)
    obtain ⟨b, bs, hbs⟩ : ∃ b bs, m.write ++ ms.flatMap Msg.write = b :: bs := by
      apply List.exists_cons_of_ne_nil
      simp [Msg.write, Msg.head]
    rw [hbs] at hread
    rw [List.flatMap_cons, hbs, readMsgs, hread, Option.bind_some, hrest]
    rfl

/-- Reading gives back what was written. -/
theorem readAll_write {ms : List Msg} (h : ∀ m ∈ ms, m.Ok size) :
    readAll size (ms.flatMap Msg.write) = some ms :=
  readMsgs_write h (length_le_flatMap_write ms)

theorem readMsgs_sound {n : Nat} {bs : List UInt8} {ms : List Msg}
    (h : readMsgs size n bs = some ms) : ms.flatMap Msg.write = bs := by
  induction n generalizing bs ms with
  | zero =>
    cases bs with
    | nil =>
      obtain rfl := Option.some.inj h
      rfl
    | cons b bs => cases h
  | succ n ih =>
    cases bs with
    | nil =>
      obtain rfl := Option.some.inj h
      rfl
    | cons b bs =>
      obtain ⟨⟨m, rest⟩, hread, h⟩ := Option.bind_eq_some_iff.mp h
      obtain ⟨ms, hms, rfl⟩ := Option.map_eq_some_iff.mp h
      rw [List.flatMap_cons, ih hms, readMsg_sound hread]

/-- What is read, written again, is the stream. -/
theorem write_of_readAll {bs : List UInt8} {ms : List Msg} (h : readAll size bs = some ms) :
    ms.flatMap Msg.write = bs := readMsgs_sound h

end Message
