/-
  Chunked input.

  A handler takes the next chunk of its input and returns its new state with
  what it emits, or `none` where its behaviour is undefined. It offers room for
  `room s` symbols and is never given an empty chunk. `Splits` is the law that a
  chunk which fits may as well be given in two pieces. Under it the end state
  and the output depend on the symbols alone and not on where they were cut
  (`feed_flatten`, `feed_eq_of_flatten`), so a statement about every cutting is
  a statement about one symbol at a time.

  Nothing here names a program.
-/
namespace Chunks

variable {σ β ω : Type}

/-- Feed the chunks in order, collecting the output. -/
def feed (h : σ → List β → Option (σ × List ω)) : σ → List (List β) → Option (σ × List ω)
  | s, [] => some (s, [])
  | s, c :: cs => (h s c).bind (fun r => (feed h r.1 cs).map (fun t => (t.1, r.2 ++ t.2)))

/-- Every chunk is nonempty and fits in the room offered when it arrives. -/
def Fits (h : σ → List β → Option (σ × List ω)) (room : σ → Nat) : σ → List (List β) → Prop
  | _, [] => True
  | s, c :: cs => 0 < c.length ∧ c.length ≤ room s ∧ ∀ r, h s c = some r → Fits h room r.1 cs

/-- One symbol a chunk. -/
def singles (x : List β) : List (List β) := x.map (fun b => [b])

/-- A chunk that fits may be cut in two: the second piece still fits after the first, and the
outcome is that of the whole. -/
structure Splits (h : σ → List β → Option (σ × List ω)) (room : σ → Nat) (Inv : σ → Prop) :
    Prop where
  keeps : ∀ s c r, Inv s → 0 < c.length → c.length ≤ room s → h s c = some r → Inv r.1
  cut : ∀ s x y, Inv s → 0 < x.length → 0 < y.length → x.length + y.length ≤ room s →
    h s (x ++ y) = feed h s [x, y] ∧ ∀ r, h s x = some r → y.length ≤ room r.1

variable {h : σ → List β → Option (σ × List ω)} {room : σ → Nat} {Inv : σ → Prop}

theorem feed_singleton (s : σ) (c : List β) : feed h s [c] = h s c := by
  simp only [feed, Option.map_some, List.append_nil]
  cases h s c <;> rfl

theorem feed_append (s : σ) (cs ds : List (List β)) :
    feed h s (cs ++ ds) =
      (feed h s cs).bind (fun r => (feed h r.1 ds).map (fun t => (t.1, r.2 ++ t.2))) := by
  induction cs generalizing s with
  | nil => cases hd : feed h s ds <;> simp [feed, hd]
  | cons c cs ih =>
    simp only [List.cons_append, feed]
    cases h s c with
    | none => rfl
    | some r =>
      simp only [Option.bind_some, ih]
      cases feed h r.1 cs with
      | none => rfl
      | some t => cases hd : feed h t.1 ds <;> simp [hd]

/-- A chunk that fits is its symbols one at a time. -/
theorem feed_singles (law : Splits h room Inv) : ∀ (x : List β) (s : σ), Inv s →
    0 < x.length → x.length ≤ room s → feed h s (singles x) = h s x
  | [], _, _, hx, _ => absurd hx (Nat.lt_irrefl 0)
  | [b], s, _, _, _ => feed_singleton s [b]
  | b :: b' :: x, s, hs, _, hr => by
    simp only [List.length_cons] at hr
    obtain ⟨hcut, hroom⟩ := law.cut s [b] (b' :: x) hs (by simp) (by simp)
      (by simp only [List.length_cons, List.length_nil]; omega)
    rw [show b :: b' :: x = [b] ++ (b' :: x) from rfl, hcut]
    simp only [singles, List.map_cons, List.singleton_append, feed]
    cases hb : h s [b] with
    | none => rfl
    | some r =>
      have hkeep := law.keeps s [b] r hs (by simp) (by simp only [List.length_singleton]; omega) hb
      have ih := feed_singles law (b' :: x) r.1 hkeep (by simp) (hroom r hb)
      simp only [singles, List.map_cons, feed] at ih
      simp only [Option.bind_some, ih]
      cases h r.1 (b' :: x) <;> simp

/-- **However the input is cut, the outcome is that of its symbols one at a time.** -/
theorem feed_flatten (law : Splits h room Inv) : ∀ (cs : List (List β)) (s : σ), Inv s →
    Fits h room s cs → feed h s cs = feed h s (singles cs.flatten)
  | [], _, _, _ => rfl
  | c :: cs, s, hs, hf => by
    obtain ⟨hpos, hroom, hrest⟩ := hf
    have hc : singles (c :: cs).flatten = singles c ++ singles cs.flatten := by simp [singles]
    rw [hc, feed_append, feed_singles law c s hs hpos hroom]
    simp only [feed]
    cases hr : h s c with
    | none => rfl
    | some r =>
      simp only [Option.bind_some]
      rw [feed_flatten law cs r.1 (law.keeps s c r hs hpos hroom hr) (hrest r hr)]

/-- **Two cuttings of the same input have the same outcome.** -/
theorem feed_eq_of_flatten (law : Splits h room Inv) {s : σ} {cs ds : List (List β)} (hs : Inv s)
    (hc : Fits h room s cs) (hd : Fits h room s ds) (heq : cs.flatten = ds.flatten) :
    feed h s cs = feed h s ds := by
  rw [feed_flatten law cs s hs hc, feed_flatten law ds s hs hd, heq]

end Chunks
