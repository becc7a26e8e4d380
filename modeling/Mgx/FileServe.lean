import Mgx.HttpResponse

/-
  Serving a file that gets shorter.

  `th_msg_process_func` declares the size `fstat` reports and fills a zeroed buffer
  of that size with `must_read`. `must_read` answers the size, 0 at an end of file
  that comes early, and -1 on an error; the caller tests for an error only.

  What is proved: `whole_file_iff`. A positive answer of `must_read` means that all
  of the file was stored, and the 200 response is sent for a whole file only, exactly
  when `read` does not answer 0 before the size is reached.
-/
namespace Mgx
open CMem

/-- The bytes an answer of `read` brings. -/
def RecvRet.bytes : RecvRet → Bytes
  | .got bs => bs
  | .fail _ => []

/-- `size` bytes are stored, and they are what the answers brought, one after another. -/
def StoredWhole (size : Nat) (reads : List RecvRet) (stored : Bytes) : Prop :=
  stored.length = size ∧ ∃ pre post, reads = pre ++ post ∧ stored = pre.flatMap RecvRet.bytes

/-- With `off` bytes there already, `read` answers 0 before there are `size` bytes: in front of it are
interrupted calls and short reads only. -/
def EndsEarly (size off : Nat) (reads : List RecvRet) : Prop :=
  ∃ pre post, reads = pre ++ .got [] :: post ∧
    (∀ r ∈ pre, r = .fail .eintr ∨ r.bytes ≠ []) ∧ off + (pre.flatMap RecvRet.bytes).length < size

/-- The behaviour of `must_read` and of `th_msg_process_func` that a client relies on: a positive
answer is the size, with all of the file stored; and where a file was opened, the 200 response with
its size is sent only if it was stored whole, or is empty. -/
def ServesWholeFile (site : Site) (env : HttpEnv) (msg : HttpMsg) : Prop :=
  (∀ size reads ret stored, mustRead size [] reads = some (ret, stored) → 0 < ret →
    ret = size ∧ StoredWhole size reads stored) ∧
  ∀ file size res, msg.httpMethod = .get →
    site.openFile (staticFilePath site.indexPath msg.uri.1) = some file → file.size = some size →
    httpThMsgProcessFunc site env msg = .respond res → res.statusLine = status200 →
    (ascii "Content-Length", decimal size) ∈ res.headers →
    size = 0 ∨ ∃ stored, mustRead size [] file.reads = some ((size : Int), stored) ∧
      StoredWhole size file.reads stored

/-! ## `must_read` -/

/-- The loop ends when the buffer is full. -/
theorem mustRead_full {size : Nat} {buf : Bytes} (hfull : size ≤ buf.length)
    (reads : List RecvRet) : mustRead size buf reads = some ((buf.length : Int), buf) := by
  cases reads with
  | nil => exact if_neg (by omega)
  | cons r rs =>
    unfold mustRead
    exact if_neg (by omega)

/-- A positive answer: the buffer is full, with what the answers brought behind what was there. -/
theorem mustRead_pos {size : Nat} {reads : List RecvRet} {buf stored : Bytes} {ret : Int}
    (hbuf : buf.length ≤ size) (h : mustRead size buf reads = some (ret, stored)) (hpos : 0 < ret) :
    ret = size ∧ stored.length = size ∧
      ∃ pre post, reads = pre ++ post ∧ stored = buf ++ pre.flatMap RecvRet.bytes := by
  induction reads generalizing buf with
  | nil =>
    rw [mustRead] at h
    split at h
    · cases h
    · cases h
      exact ⟨by omega, by omega, [], [], rfl, by simp⟩
  | cons r rs ih =>
    unfold mustRead at h
    split at h
    · split at h
      · next bs =>
        split at h
        · -- end of file
          cases h
          omega
        · split at h
          · obtain ⟨hret, hlen, pre, post, rfl, rfl⟩ :=
              ih (by rw [List.length_append]; omega) h
            exact ⟨hret, hlen, .got bs :: pre, post, rfl, by simp [RecvRet.bytes]⟩
          · cases h
      · obtain ⟨hret, hlen, pre, post, rfl, rfl⟩ := ih hbuf h
        exact ⟨hret, hlen, .fail .eintr :: pre, post, rfl, by simp [RecvRet.bytes]⟩
      · cases h
        omega
    · cases h
      exact ⟨by omega, by omega, [], r :: rs, rfl, by simp⟩

theorem not_endsEarly_nil (size off : Nat) : ¬ EndsEarly size off [] := by
  rintro ⟨pre, post, heq, -⟩
  simp at heq

theorem endsEarly_cons {size off : Nat} {r : RecvRet} {rs : List RecvRet} :
    EndsEarly size off (r :: rs) ↔ r = .got [] ∧ off < size ∨
      (r = .fail .eintr ∨ r.bytes ≠ []) ∧ EndsEarly size (off + r.bytes.length) rs := by
  constructor
  · rintro ⟨pre, post, heq, hpre, hlt⟩
    cases pre with
    | nil =>
      obtain ⟨rfl, -⟩ := List.cons.inj heq
      exact .inl ⟨rfl, by simpa using hlt⟩
    | cons x pre =>
      obtain ⟨rfl, rfl⟩ := List.cons.inj heq
      refine .inr ⟨hpre r List.mem_cons_self, pre, post, rfl,
        fun x hx => hpre x (List.mem_cons_of_mem r hx), ?_⟩
      rw [List.flatMap_cons, List.length_append] at hlt
      omega
  · rintro (⟨rfl, hlt⟩ | ⟨hr, pre, post, rfl, hpre, hlt⟩)
    · exact ⟨[], rs, rfl, by simp, by simpa using hlt⟩
    · refine ⟨r :: pre, post, rfl, fun x hx => ?_, ?_⟩
      · rcases List.mem_cons.mp hx with rfl | hx
        · exact hr
        · exact hpre x hx
      · rw [List.flatMap_cons, List.length_append]
        omega

/-- Nothing ends early when all is there. -/
theorem EndsEarly.lt {size off : Nat} {reads : List RecvRet} (h : EndsEarly size off reads) :
    off < size := by
  obtain ⟨pre, post, -, -, hlt⟩ := h
  omega

/-- `must_read` answers 0 exactly when the file ends early. -/
theorem mustRead_zero_iff {size : Nat} {reads : List RecvRet} : ∀ {buf : Bytes}, buf.length < size →
    ((∃ stored, mustRead size buf reads = some (0, stored)) ↔ EndsEarly size buf.length reads) := by
  induction reads with
  | nil =>
    intro buf hlt
    rw [mustRead, if_pos hlt]
    exact iff_of_false (by simp) (not_endsEarly_nil _ _)
  | cons r rs ih =>
    intro buf hlt
    rw [endsEarly_cons]
    unfold mustRead
    rw [if_pos hlt]
    cases r with
    | got bs =>
      by_cases hnil : bs = []
      · subst hnil
        simp [hlt]
      have hpos : bs.length ≠ 0 := fun h => hnil (List.length_eq_zero_iff.mp h)
      simp only [if_neg hpos, RecvRet.got.injEq, hnil, false_and, false_or, RecvRet.bytes, reduceCtorEq,
        ne_eq, not_false_eq_true, true_and]
      by_cases hle : bs.length ≤ size - buf.length
      · rw [if_pos hle]
        have hlen : (buf ++ bs).length = buf.length + bs.length := List.length_append
        by_cases hfull : buf.length + bs.length < size
        · rw [ih (by omega), hlen]
        · -- the buffer is full, and the loop ends
          refine iff_of_false ?_ fun hend => hfull hend.lt
          rintro ⟨stored, h⟩
          rw [mustRead_full (by omega), Option.some.injEq, Prod.mk.injEq] at h
          omega
      · rw [if_neg hle]
        refine iff_of_false (by simp) fun hend => ?_
        have := hend.lt
        omega
    | fail e =>
      cases e with
      | eintr => simpa [RecvRet.bytes] using ih hlt
      | eagain => simp [RecvRet.bytes]
      | econnreset => simp [RecvRet.bytes]
      | other => simp [RecvRet.bytes]

/-! ## The response -/

/-- A response for a file that was opened: its size, and an answer of `must_read` that is no error. -/
theorem respond_file {site : Site} {env : HttpEnv} {msg : HttpMsg} {file : OpenFile} {size : Nat}
    (hget : msg.httpMethod = .get)
    (hopen : site.openFile (staticFilePath site.indexPath msg.uri.1) = some file)
    (hsize : file.size = some size) (res : HttpResponse) :
    httpThMsgProcessFunc site env msg = .respond res ↔ env.query.Returns ∧
      ∃ mime ret stored, getMimeType (getExtension msg.uri.1) = some mime ∧
        mustRead size [] file.reads = some (ret, stored) ∧ 0 ≤ ret ∧
        res = ⟨status200, responseHeaders mime size, responseBuf size stored⟩ := by
  simp only [httpThMsgProcessFunc, hget, hopen, hsize]
  cases hmime : getMimeType (getExtension msg.uri.1) with
  | none => simp
  | some mime =>
    simp only [Option.some.injEq]
    cases hmust : mustRead size [] file.reads with
    | none => simp
    | some p =>
      obtain ⟨ret, stored⟩ := p
      simp only
      by_cases hneg : ret < 0
      · rw [if_pos hneg, logged_respond_iff]
        refine iff_of_false (fun h => nomatch h.2) ?_
        intro ⟨_, mime', ret', stored', _, heq, hpos, _⟩
        cases heq
        exact absurd hpos (Int.not_le.mpr hneg)
      · rw [if_neg hneg, finish_respond_iff]
        constructor
        · intro ⟨hreturns, hres⟩
          exact ⟨hreturns, mime, ret, stored, rfl, rfl, Int.not_lt.mp hneg, hres.symm⟩
        · intro ⟨hreturns, mime', ret', stored', hmime', heq, _, hres⟩
          cases hmime'
          cases heq
          exact ⟨hreturns, hres.symm⟩

/-- **200 only with the whole file.** For every site, file and sequence of answers: a positive answer
of `must_read` means that the whole file was stored in order, and the 200 response is sent for a file
only when it was, if and only if `read` does not answer 0 before the size that `fstat` reported is
reached; unless no response is made at all, the content type being unknown or the query not
returning. -/
theorem whole_file_iff (site : Site) (env : HttpEnv) (msg : HttpMsg) :
    ServesWholeFile site env msg ↔ ∀ file size, msg.httpMethod = .get →
      site.openFile (staticFilePath site.indexPath msg.uri.1) = some file → file.size = some size →
      getMimeType (getExtension msg.uri.1) ≠ none → env.query.Returns →
        ¬ EndsEarly size 0 file.reads := by
  constructor
  · rintro ⟨-, hserves⟩ file size hget hopen hsize hmime hreturns hend
    obtain ⟨mime, hmime⟩ := Option.ne_none_iff_exists'.mp hmime
    -- `must_read` answers 0, which is not tested for
    have hlt : ([] : Bytes).length < size := hend.lt
    obtain ⟨stored, hmust⟩ := (mustRead_zero_iff hlt).mpr hend
    have hrespond := (respond_file hget hopen hsize _).mpr
      ⟨hreturns, mime, 0, stored, hmime, hmust, Int.le_refl 0, rfl⟩
    have hdeclared : (ascii "Content-Length", decimal size) ∈ responseHeaders mime size := by
      simp [responseHeaders]
    rcases hserves file size _ hget hopen hsize hrespond rfl hdeclared with hzero | ⟨s, hwhole, -⟩
    · omega
    · rw [hmust, Option.some.injEq, Prod.mk.injEq] at hwhole
      omega
  · intro hnot
    have hpos : ∀ size reads ret stored, mustRead size [] reads = some (ret, stored) → 0 < ret →
        ret = size ∧ StoredWhole size reads stored := by
      intro size reads ret stored hmust hret
      obtain ⟨heq, hlen, pre, post, hreads, hstored⟩ := mustRead_pos (Nat.zero_le _) hmust hret
      exact ⟨heq, hlen, pre, post, hreads, by rw [hstored, List.nil_append]⟩
    refine ⟨hpos, fun file size res hget hopen hsize hrespond _ _ => ?_⟩
    obtain ⟨hreturns, mime, ret, stored, hmime, hmust, hret, -⟩ :=
      (respond_file hget hopen hsize res).mp hrespond
    by_cases hzero : size = 0
    · exact .inl hzero
    right
    by_cases hret0 : ret = 0
    · subst hret0
      have hlt : ([] : Bytes).length < size := Nat.pos_of_ne_zero hzero
      have hend := (mustRead_zero_iff hlt).mp ⟨stored, hmust⟩
      exact absurd hend (hnot file size hget hopen hsize (by rw [hmime]; simp) hreturns)
    · obtain ⟨heq, hwhole⟩ := hpos size file.reads ret stored hmust (by omega)
      exact ⟨stored, by rw [hmust, heq], hwhole⟩

/-- A site with one page at /, of ten bytes when it is opened, of which four are left when it is
read. -/
def shrunkPage : Site where
  indexPath := ascii "./html"
  openFile := fun path =>
    if path = ascii "./html/index.html" then
      some ⟨some 10, [.got (ascii "<p>t"), .got []]⟩
    else none
  page404 := none

/-- Ten bytes are declared, four are sent. -/
theorem whole_file_shrunk :
    ¬ ServesWholeFile shrunkPage quietEnv getRootMsg ∧
    ∃ res, httpThMsgProcessFunc shrunkPage quietEnv getRootMsg = .respond res ∧
      res.statusLine = status200 ∧ (ascii "Content-Length", ascii "10") ∈ res.headers ∧
      cstr res.responseBody = ascii "<p>t" := by
  have hopen : shrunkPage.openFile (staticFilePath shrunkPage.indexPath getRootMsg.uri.1) =
      some ⟨some 10, [.got (ascii "<p>t"), .got []]⟩ := by
    have hpath : staticFilePath shrunkPage.indexPath getRootMsg.uri.1 =
        ascii "./html/index.html" := by decide
    rw [hpath]
    simp [shrunkPage]
  have hmust : mustRead 10 [] [.got (ascii "<p>t"), .got []] = some (0, ascii "<p>t") := by decide
  have hmime : getMimeType (getExtension getRootMsg.uri.1) = some (ascii "text/html") := by decide
  have hrespond : httpThMsgProcessFunc shrunkPage quietEnv getRootMsg = .respond
      ⟨status200, responseHeaders (ascii "text/html") 10, responseBuf 10 (ascii "<p>t")⟩ :=
    (respond_file rfl hopen rfl _).mpr
      ⟨quietQuery_returns, ascii "text/html", 0, ascii "<p>t", hmime, hmust, Int.le_refl 0, rfl⟩
  refine ⟨fun hserves => ?_, _, hrespond, rfl, by decide, by decide⟩
  rcases hserves.2 _ 10 _ rfl hopen rfl hrespond rfl (by decide) with hzero | ⟨stored, hwhole, -⟩
  · omega
  · rw [hmust, Option.some.injEq, Prod.mk.injEq] at hwhole
    omega

end Mgx
