import Mgx.HttpResponse
import Mgx.Lib.Paths

/-
  The content type of a static file.

  `get_extension` looks for the last dot of the URI, wherever it is, and takes what
  follows to be the suffix of the file; `get_mime_type` looks that up with
  `operator[]`, which answers a null pointer for a suffix that is not listed.
  `th_msg_process_func` makes a `std::string` of the pointer, which is undefined when
  it is null.

  The last segment of a URI is what comes after its last slash. The URI of a file of
  the same name in the top directory is that segment behind a slash.

  What is proved: `mime_type_iff`. For every URI, the content type is defined and the
  one of the last segment exactly when the URI ends in a suffix of the table, or has
  no dot.
-/
namespace Mgx
open CMem Paths

/-- The content type for a URI is defined, and it is the one for the last segment alone. -/
def MimeDefined (uri : Bytes) : Prop :=
  ∃ mime, getMimeType (getExtension uri) = some mime ∧
    getMimeType (getExtension (slash :: lastPart uri)) = some mime

/-- The URI ends in a suffix of the table, and is not the suffix alone unless that is one for HTML;
or there is no dot in it, except in front of a slash as its first byte. -/
def TypedUri (uri : Bytes) : Prop :=
  (∃ m ∈ mimeTypes, ascii m.1 <:+ uri ∧ (uri = ascii m.1 → m.2 = "text/html")) ∨
    (dot ∉ uri.tail ∧ (uri.head? = some dot → slash ∈ uri))

/-! ## The table -/

/-- Every suffix of the table is a dot and then neither dot nor slash. -/
theorem mimeTypes_dot : ∀ m ∈ mimeTypes, ∃ e, ascii m.1 = dot :: e ∧ dot ∉ e ∧ slash ∉ e := by
  have htable : ∀ m ∈ mimeTypes, (ascii m.1).head? = some dot ∧ dot ∉ (ascii m.1).tail ∧
      slash ∉ (ascii m.1).tail := by decide
  intro m hm
  obtain ⟨hhead, hdot, hslash⟩ := htable m hm
  exact ⟨(ascii m.1).tail, (List.cons_head?_tail hhead).symm, hdot, hslash⟩

/-- The suffixes are distinct. -/
theorem getMimeType_mem : ∀ m ∈ mimeTypes, getMimeType (ascii m.1) = some (ascii m.2) := by
  decide

theorem getMimeType_eq_some {ext mime : Bytes} (h : getMimeType ext = some mime) :
    ∃ m ∈ mimeTypes, ascii m.1 = ext ∧ ascii m.2 = mime := by
  obtain ⟨m, hfind, rfl⟩ := Option.map_eq_some_iff.mp h
  have hext : (ascii m.1 == ext) = true :=
    List.find?_some (p := fun m : String × String => ascii m.1 == ext) hfind
  exact ⟨m, List.mem_of_find?_eq_some hfind, beq_iff_eq.mp hext, rfl⟩

theorem mimeTypes_html : ∀ m ∈ mimeTypes, ascii m.2 = ascii "text/html" ↔ m.2 = "text/html" := by
  decide

/-! ## The extension -/

/-- The loop passes over what is no dot. -/
theorem extensionFrom_skip {path : Bytes} {p : Nat} : ∀ {q : Nat}, p ≤ q →
    (∀ i, p < i → i ≤ q → path[i]? ≠ some 46) → extensionFrom path q = extensionFrom path p := by
  intro q
  induction q with
  | zero =>
    intro hpq _
    rw [Nat.le_zero.mp hpq]
  | succ q ih =>
    intro hpq hskip
    rcases Nat.lt_or_eq_of_le hpq with hlt | rfl
    · have hle : p ≤ q := Nat.le_of_lt_succ hlt
      rw [extensionFrom, if_neg (hskip (q + 1) hlt (Nat.le_refl _))]
      exact ih hle fun i hi hiq => hskip i hi (Nat.le_succ_of_le hiq)
    · rfl

/-- A dot behind the first byte, and none after it: there the suffix begins. -/
theorem getExtension_dot (x : UInt8) (pre : Bytes) {e : Bytes} (he : dot ∉ e) :
    getExtension (x :: pre ++ dot :: e) = dot :: e := by
  have hat : (x :: pre ++ dot :: e)[pre.length + 1]? = some 46 := by
    rw [List.getElem?_append_right (by simp)]
    simp [dot]
  have hafter : ∀ i, pre.length + 1 < i → i ≤ (x :: pre ++ dot :: e).length →
      (x :: pre ++ dot :: e)[i]? ≠ some 46 := by
    intro i hi _ hsome
    rw [List.getElem?_append_right (by simp; omega)] at hsome
    obtain ⟨j, hj⟩ : ∃ j, i - (x :: pre).length = j + 1 :=
      Nat.exists_eq_add_one.mpr (by simp; omega)
    rw [hj, List.getElem?_cons_succ] at hsome
    exact he (List.mem_of_getElem? hsome)
  rw [getExtension, extensionFrom_skip (p := pre.length + 1) (by simp) hafter,
    extensionFrom, if_pos hat]
  have hdrop : (x :: pre ++ dot :: e).drop (x :: pre).length = dot :: e := List.drop_left
  rwa [List.length_cons] at hdrop

/-- No dot behind the first byte: `.html`. -/
theorem getExtension_dotless {path : Bytes} (h : dot ∉ path.tail) :
    getExtension path = ascii ".html" := by
  have hnone : ∀ i, 0 < i → i ≤ path.length → path[i]? ≠ some 46 := by
    intro i hi _ hsome
    obtain ⟨j, rfl⟩ := Nat.exists_eq_add_one.mpr hi
    rw [← List.getElem?_tail] at hsome
    exact h (List.mem_of_getElem? hsome)
  rw [getExtension, extensionFrom_skip (Nat.zero_le _) hnone, extensionFrom]

/-- The last dot, where there is one. -/
theorem exists_last_dot {l : Bytes} (h : dot ∈ l) : ∃ pre e, l = pre ++ dot :: e ∧ dot ∉ e := by
  obtain ⟨e, pre, hsplit, he⟩ := List.eq_append_cons_of_mem (List.mem_reverse.mpr h)
  refine ⟨pre.reverse, e.reverse, ?_, fun hmem => he (List.mem_reverse.mp hmem)⟩
  rw [← List.reverse_reverse l, hsplit]
  simp

/-- Two suffixes with one dot each, in front, are the same. -/
theorem suffix_dot_unique {l e f : Bytes} (he : dot :: e <:+ l) (hf : dot :: f <:+ l)
    (hed : dot ∉ e) (hfd : dot ∉ f) : e = f := by
  rcases List.suffix_or_suffix_of_suffix he hf with h | h
  · rcases List.suffix_cons_iff.mp h with h | h
    · exact (List.cons.inj h).2
    · exact absurd (h.subset List.mem_cons_self) hfd
  · rcases List.suffix_cons_iff.mp h with h | h
    · exact (List.cons.inj h).2.symm
    · exact absurd (h.subset List.mem_cons_self) hed

/-! ## When the type is defined -/

/-- With a dot behind the first byte: its suffix is in the table. -/
theorem mimeDefined_dot (x : UInt8) (pre : Bytes) {e : Bytes} (he : dot ∉ e) :
    MimeDefined (x :: pre ++ dot :: e) ↔ ∃ m ∈ mimeTypes, ascii m.1 = dot :: e := by
  constructor
  · rintro ⟨mime, hmime, -⟩
    rw [getExtension_dot x pre he] at hmime
    obtain ⟨m, hm, hext, -⟩ := getMimeType_eq_some hmime
    exact ⟨m, hm, hext⟩
  · rintro ⟨m, hm, hext⟩
    -- no suffix of the table has a slash, so this one is in the last segment
    obtain ⟨e', he', -, hslash⟩ := mimeTypes_dot m hm
    obtain rfl : e = e' := (List.cons.inj (hext.symm.trans he')).2
    have hlast : lastPart (x :: pre ++ dot :: e) = lastPart (x :: pre) ++ dot :: e := by
      refine lastPart_append _ fun hmem => ?_
      rcases List.mem_cons.mp hmem with hdot | hmem
      · exact absurd hdot (by decide)
      · exact hslash hmem
    refine ⟨ascii m.2, ?_, ?_⟩
    · rw [getExtension_dot x pre he, ← hext]
      exact getMimeType_mem m hm
    · rw [hlast, ← List.cons_append, getExtension_dot slash _ he, ← hext]
      exact getMimeType_mem m hm

/-- Without one: unless the URI is the name of a file that begins with a dot. -/
theorem mimeDefined_dotless {uri : Bytes} (h : dot ∉ uri.tail) :
    MimeDefined uri ↔
      (uri.head? = some dot → slash ∈ uri ∨ ∃ m ∈ mimeTypes, ascii m.1 = uri ∧ m.2 = "text/html") := by
  have huri : getMimeType (getExtension uri) = some (ascii "text/html") := by
    rw [getExtension_dotless h]
    decide
  by_cases hdot : dot ∈ lastPart uri
  · -- the dot is the first byte, and the whole URI is one segment
    obtain ⟨x, rest, rfl⟩ := List.exists_cons_of_ne_nil (l := uri) (by rintro rfl; cases hdot)
    have hwhole : lastPart (x :: rest) = x :: rest := by
      rcases List.suffix_cons_iff.mp (lastPart_suffix (x :: rest)) with hwhole | hsuffix
      · exact hwhole
      · exact absurd (hsuffix.subset hdot) h
    have hslash : slash ∉ x :: rest := by
      rw [← hwhole]
      exact slash_notMem_lastPart _
    obtain rfl : x = dot := by
      rw [hwhole] at hdot
      rcases List.mem_cons.mp hdot with hx | hrest
      · exact hx.symm
      · exact absurd hrest h
    have hext : getExtension (slash :: dot :: rest) = dot :: rest :=
      getExtension_dot slash [] h
    unfold MimeDefined
    rw [huri, hwhole, hext]
    constructor
    · rintro ⟨mime, hmime, htype⟩ -
      obtain rfl := Option.some.inj hmime
      obtain ⟨m, hm, hm1, hm2⟩ := getMimeType_eq_some htype
      exact .inr ⟨m, hm, hm1, (mimeTypes_html m hm).mp hm2⟩
    · intro hcond
      rcases hcond rfl with hmem | ⟨m, hm, hm1, hm2⟩
      · exact absurd hmem hslash
      · refine ⟨_, rfl, ?_⟩
        rw [← hm1, getMimeType_mem m hm, hm2]
  · have hlast : getMimeType (getExtension (slash :: lastPart uri)) = some (ascii "text/html") := by
      have hext : getExtension (slash :: lastPart uri) = ascii ".html" := getExtension_dotless hdot
      rw [hext]
      decide
    refine iff_of_true ⟨_, huri, hlast⟩ fun hhead => ?_
    by_contra hno
    obtain ⟨hslash, -⟩ := not_or.mp hno
    have hwhole : lastPart uri = uri := lastPart_append [] hslash
    rw [hwhole] at hdot
    exact hdot (List.mem_of_mem_head? hhead)

/-- **When the content type is defined.** For every URI: it is not null, and it is the type of the
last segment alone, exactly when the URI ends in a suffix of the table (and is not just the suffix,
unless that is one for HTML) or has no dot (but as its first byte in front of a slash). -/
theorem mime_type_iff (uri : CStr) : MimeDefined uri.1 ↔ TypedUri uri.1 := by
  obtain ⟨uri, hnul⟩ := uri
  show MimeDefined uri ↔ TypedUri uri
  clear hnul
  by_cases h : dot ∈ uri.tail
  · obtain ⟨pre, e, htail, he⟩ := exists_last_dot h
    obtain ⟨x, rest, rfl⟩ := List.exists_cons_of_ne_nil (l := uri) (by rintro rfl; cases h)
    obtain rfl : rest = pre ++ dot :: e := htail
    have hsuffix : dot :: e <:+ x :: (pre ++ dot :: e) := ⟨x :: pre, rfl⟩
    rw [← List.cons_append, mimeDefined_dot x pre he, List.cons_append]
    constructor
    · rintro ⟨m, hm, hext⟩
      refine .inl ⟨m, hm, by rw [hext]; exact hsuffix, fun hwhole => ?_⟩
      have hlen := congrArg List.length (hwhole.trans hext)
      simp at hlen
      omega
    · rintro (⟨m, hm, hends, -⟩ | ⟨hno, -⟩)
      · obtain ⟨e', he', hdot, -⟩ := mimeTypes_dot m hm
        rw [he'] at hends
        exact ⟨m, hm, by rw [he', suffix_dot_unique hends hsuffix hdot he]⟩
      · exact absurd h hno
  · rw [mimeDefined_dotless h]
    constructor
    · intro hcond
      by_cases hends : ∃ m ∈ mimeTypes, ascii m.1 = uri ∧ m.2 = "text/html"
      · obtain ⟨m, hm, hm1, hm2⟩ := hends
        exact .inl ⟨m, hm, by rw [hm1], fun _ => hm2⟩
      · exact .inr ⟨h, fun hhead => (hcond hhead).resolve_right hends⟩
    · rintro (⟨m, hm, hends, hhtml⟩ | ⟨-, hslash⟩) hhead
      · -- the suffix begins with the only dot there is
        obtain ⟨e, he, -, -⟩ := mimeTypes_dot m hm
        obtain ⟨x, rest, rfl⟩ := List.exists_cons_of_ne_nil (l := uri) (by rintro rfl; cases hhead)
        rw [he] at hends
        rcases List.suffix_cons_iff.mp hends with hwhole | hsuffix
        · exact .inr ⟨m, hm, he.trans hwhole, hhtml (he.trans hwhole).symm⟩
        · exact absurd (hsuffix.subset List.mem_cons_self) h
      · exact .inl (hslash hhead)

/-- A file is opened for a URI whose type is null: the behaviour is undefined. -/
theorem httpThMsgProcessFunc_untyped {site : Site} {env : HttpEnv} {msg : HttpMsg} {file : OpenFile}
    {size : Nat} (hget : msg.httpMethod = .get)
    (hopen : site.openFile (staticFilePath site.indexPath msg.uri.1) = some file)
    (hsize : file.size = some size) (htype : getMimeType (getExtension msg.uri.1) = none) :
    httpThMsgProcessFunc site env msg = .fault := by
  simp only [httpThMsgProcessFunc, hget, hopen, hsize, htype]

/-- A site that has every file, empty. -/
def everyFile : Site where
  indexPath := ascii "./html"
  openFile := fun _ => some ⟨some 0, []⟩
  page404 := none

/-- A file with another suffix, and a file without one in a directory with a dot: the type is null.
Without the directory the second is an HTML page. -/
theorem mime_type_undefined :
    ∃ pdf nested : HttpMsg, pdf.uri.1 = ascii "/manual.pdf" ∧
      nested.uri.1 = ascii "/v1.2/manual" ∧
      httpThMsgProcessFunc everyFile quietEnv pdf = .fault ∧ ¬ MimeDefined pdf.uri.1 ∧
      httpThMsgProcessFunc everyFile quietEnv nested = .fault ∧ ¬ MimeDefined nested.uri.1 ∧
      getMimeType (getExtension (slash :: lastPart nested.uri.1)) = some (ascii "text/html") := by
  have hpdf : getMimeType (getExtension (ascii "/manual.pdf")) = none := by decide
  have hnested : getMimeType (getExtension (ascii "/v1.2/manual")) = none := by decide
  refine ⟨⟨⟨0, 1⟩, .get, ⟨ascii "/manual.pdf", by decide⟩, .of []⟩,
    ⟨⟨0, 1⟩, .get, ⟨ascii "/v1.2/manual", by decide⟩, .of []⟩, rfl, rfl,
    httpThMsgProcessFunc_untyped rfl rfl rfl hpdf, ?_,
    httpThMsgProcessFunc_untyped rfl rfl rfl hnested, ?_, by decide⟩
  · rintro ⟨mime, hmime, -⟩
    rw [hpdf] at hmime
    cases hmime
  · rintro ⟨mime, hmime, -⟩
    rw [hnested] at hmime
    cases hmime

end Mgx
