import Mgx.HttpRequest

/-
  How much the body reader allocates, and how much it reads.

  `Content-Length` goes through `stoi` into an `unsigned int`; the allocation is one
  byte more, in the same type, and the loop asks for what is missing in 64 bits.
  `new` may fail: `alloc` says which sizes it can provide. An exception of `stoi` or
  `new` is caught nowhere up to the event loop. Where no allocation fails this is
  the function of the other modules (`httpReadRequestBodyAlloc_eq`).

  Correspondence (C++ ↔ Lean), `http/mgx_http_socket.cpp`:
    `http_read_request_body` up to the loop     ↔ `bodyCall`
    the `recv_process` calls of the loop         ↔ `bodyRecvs`
    the function, `new` failing where it does   ↔ `httpReadRequestBodyAlloc`

  What is proved: `body_length_safe_iff`. Nothing escapes, the buffer is larger than
  what is read and every `recv` stays inside it exactly when the value is an `int`
  other than -1 and its buffer can be allocated.
-/
namespace Mgx
open CMem Inflow

/-- What `http_read_request_body` has before its loop: no header, an exception, or `content_len` and
the size of the allocation. -/
inductive BodyCall where
  | absent
  | throws
  | reads (contentLen size : Nat)
  deriving DecidableEq, Repr

def bodyCall (alloc : Nat → Bool) (headers : Headers) : BodyCall :=
  match headers (ascii "Content-Length") with
  | none => .absent
  | some val =>
    match stoi val with
    | none => .throws
    | some n =>
      let contentLen := (n % 2 ^ 32).toNat
      let size := (contentLen + 1) % 2 ^ 32
      if alloc size then .reads contentLen size else .throws

/-- `http_read_request_body` where `new` may fail. -/
def httpReadRequestBodyAlloc (alloc : Nat → Bool) (headers : Headers) (l : List SockItem) :
    HttpRead (Nat × Option Bytes) :=
  match bodyCall alloc headers with
  | .absent => .done (1, none) l
  | .throws => .fault
  | .reads contentLen size =>
    (httpBodyLoop size contentLen [] l).bind fun body l => .done (contentLen, some body) l

/-- Where every allocation succeeds it is the function of the other modules. -/
theorem httpReadRequestBodyAlloc_eq {alloc : Nat → Bool} (h : ∀ size, alloc size = true)
    (headers : Headers) (l : List SockItem) :
    httpReadRequestBodyAlloc alloc headers l = httpReadRequestBody headers l := by
  unfold httpReadRequestBodyAlloc httpReadRequestBody bodyCall
  cases headers (ascii "Content-Length") with
  | none => rfl
  | some val =>
    cases hval : stoi val with
    | none => simp only [hval]
    | some n => simp only [hval, h, if_true]

/-- The offset and the size of every `recv` of the loop, from `off` on. Each of them takes an item, so
that a turn for each item is enough. -/
def bodyRecvs (contentLen : Nat) : Nat → Nat → List SockItem → List (Nat × Nat)
  | 0, _, _ => []
  | turns + 1, off, l =>
    if off < contentLen then
      (off, contentLen - off) :: match recvN (contentLen - off) l with
        | .done x rest => bodyRecvs contentLen turns (off + x.length) rest
        | _ => []
    else []

/-- Nothing escapes the function, and it allocates more than it then reads, within the
allocation. -/
def BodySafe (alloc : Nat → Bool) (headers : Headers) (l : List SockItem) : Prop :=
  httpReadRequestBodyAlloc alloc headers l ≠ .fault ∧
  ∃ contentLen size, bodyCall alloc headers = .reads contentLen size ∧ contentLen < size ∧
    ∀ r ∈ bodyRecvs contentLen (l.length + 1) 0 l, r.1 + r.2 ≤ size

/-- A `recv` asks for what is missing. -/
theorem bodyRecvs_le {contentLen : Nat} : ∀ {turns off : Nat} {l : List SockItem},
    ∀ r ∈ bodyRecvs contentLen turns off l, r.1 + r.2 ≤ contentLen
  | 0, off, l, r, hr => by cases hr
  | turns + 1, off, l, r, hr => by
    rw [bodyRecvs] at hr
    split at hr
    · next hlt =>
      rcases List.mem_cons.mp hr with rfl | hr
      · show off + (contentLen - off) ≤ contentLen
        omega
      · split at hr
        · exact bodyRecvs_le r hr
        · cases hr
    · cases hr

/-- The loop stays inside an allocation that is large enough. -/
theorem httpBodyLoop_ne_fault {cap contentLen : Nat} (hcap : contentLen ≤ cap) :
    ∀ (l : List SockItem) (buf : Bytes), httpBodyLoop cap contentLen buf l ≠ .fault := by
  intro l
  induction l with
  | nil =>
    intro buf h
    rw [httpBodyLoop] at h
    split at h <;> cases h
  | cons i l ih =>
    intro buf h
    cases i with
    | gap =>
      rw [httpBodyLoop] at h
      split at h
      · exact ih buf h
      · cases h
    | stop e =>
      rw [httpBodyLoop] at h
      split at h <;> cases h
    | val b =>
      rw [httpBodyLoop] at h
      split at h
      · next hmore =>
        rw [if_pos (Nat.lt_of_lt_of_le hmore hcap)] at h
        exact ih _ h
      · cases h

/-- `content_len + 1` wraps for -1 only. -/
theorem contentLen_lt_iff {n : Int} (hrange : -2 ^ 31 ≤ n ∧ n < 2 ^ 31) :
    (n % 2 ^ 32).toNat < ((n % 2 ^ 32).toNat + 1) % 2 ^ 32 ↔ n ≠ -1 := by
  omega

/-- A value that is passed on without undefined behaviour. -/
theorem HttpRead.bind_ne_fault {α β : Type} {x : HttpRead α} {f : α → List SockItem → HttpRead β}
    (hx : x ≠ .fault) (hf : ∀ a l, f a l ≠ .fault) : x.bind f ≠ .fault := by
  cases x with
  | fault => exact absurd rfl hx
  | blocked release rest => exact fun h => nomatch h
  | done a rest => exact hf a rest

/-- **When the length arithmetic is right.** For a request with a `Content-Length`, whatever follows
on the socket: the function lets no exception out, its buffer is larger than what it reads, and every
`recv` stays inside, if and only if the value is the decimal form of an `int` other than -1 and the
allocation of that many bytes and one more succeeds. -/
theorem body_length_safe_iff (alloc : Nat → Bool) (headers : Headers) (val : Bytes)
    (l : List SockItem) (hval : headers (ascii "Content-Length") = some val) :
    BodySafe alloc headers l ↔
      ∃ n, stoi val = some n ∧ n ≠ -1 ∧ alloc ((n % 2 ^ 32).toNat + 1) = true := by
  constructor
  · rintro ⟨-, contentLen, size, hcall, hlt, -⟩
    simp only [bodyCall, hval] at hcall
    split at hcall
    · cases hcall
    · next n hn =>
      split at hcall
      · next halloc =>
        obtain ⟨rfl, rfl⟩ := BodyCall.reads.inj hcall
        have hne := (contentLen_lt_iff (stoi_range hn)).mp hlt
        refine ⟨n, hn, hne, ?_⟩
        have hsize : ((n % 2 ^ 32).toNat + 1) % 2 ^ 32 = (n % 2 ^ 32).toNat + 1 := by
          apply Nat.mod_eq_of_lt
          omega
        rwa [hsize] at halloc
      · cases hcall
  · rintro ⟨n, hn, hne, halloc⟩
    have hlt := (contentLen_lt_iff (stoi_range hn)).mpr hne
    have hsize : ((n % 2 ^ 32).toNat + 1) % 2 ^ 32 = (n % 2 ^ 32).toNat + 1 := by
      apply Nat.mod_eq_of_lt
      omega
    have hcall : bodyCall alloc headers =
        .reads (n % 2 ^ 32).toNat ((n % 2 ^ 32).toNat + 1) := by
      simp only [bodyCall, hval, hn, hsize, halloc, if_true]
    refine ⟨?_, _, _, hcall, Nat.lt_succ_self _, fun r hr => ?_⟩
    · rw [httpReadRequestBodyAlloc, hcall]
      exact HttpRead.bind_ne_fault (httpBodyLoop_ne_fault (Nat.le_succ _) l [])
        fun _ _ h => nomatch h
    · exact Nat.le_succ_of_le (bodyRecvs_le r hr)

/-- A request with this `Content-Length`. -/
def lengthHeader (val : String) : Headers := fun name =>
  if name = ascii "Content-Length" then some (ascii val) else none

theorem body_length_safe_iff_three : BodySafe (fun size => size < 2 ^ 20) (lengthHeader "3")
    ([97, 98, 99].map .val) := by
  rw [body_length_safe_iff _ (lengthHeader "3") (ascii "3") _ rfl]
  exact ⟨3, by decide, by decide, rfl⟩

/-- For -1 the buffer has no bytes, and `recv` is asked for 2^32 - 1. -/
theorem body_length_wraps : bodyCall (fun _ => true) (lengthHeader "-1") =
      .reads (2 ^ 32 - 1) 0 ∧
    bodyRecvs (2 ^ 32 - 1) 2 0 [.val 97] = [(0, 2 ^ 32 - 1), (1, 2 ^ 32 - 2)] ∧
    ¬ BodySafe (fun _ => true) (lengthHeader "-1") [.val 97] := by
  have hcall : bodyCall (fun _ => true) (lengthHeader "-1") = .reads (2 ^ 32 - 1) 0 := by
    decide
  refine ⟨hcall, by decide, ?_⟩
  rintro ⟨-, contentLen, size, hreads, hlt, -⟩
  rw [hcall] at hreads
  cases hreads
  exact absurd hlt (by decide)

end Mgx
