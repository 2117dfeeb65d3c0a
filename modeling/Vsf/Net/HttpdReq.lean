/-
# The request line of httpd

`vsfip_httpd_parse_req` decodes the target of a request in place, with a pointer that reads and one
that writes. The last part is ended at the pointer that reads, so after an escape what was there is
behind the decoded text (`path_last`). The scan does not stop at the buffer's zero, and where there
are no headers the blank line is not found. `parseReq_iff` says when the call is right.
-/
import Mathlib
import Vsf.Lib.ByteMem
import Vsf.Lib.CStr
import Vsf.Lib.Text

namespace Vsf
namespace Httpd

open ByteMem CStr Text List Option

/-! ### `vsfip_httpd_parse_req` -/

/-- `VSFIP_HTTP_GET` and `VSFIP_HTTP_POST`. -/
inductive Method
  | get
  | post
  deriving DecidableEq

/-- `VSFIP_HTTP_HEAD_GET` and `VSFIP_HTTP_HEAD_POST`. -/
def Method.head : Method → List UInt8
  | .get => ascii "GET "
  | .post => ascii "POST "

/-- `url`: in the buffer, or `homepage`. -/
inductive Url
  | buffer (p : ℕ)
  | homepage
  deriving DecidableEq

/-- `struct vsfip_httpd_service_req_t`; `NULL` is `none`. -/
structure Req where
  req : Method
  url : Url
  arg : Option ℕ
  head : Option ℕ
  body : Option ℕ
  deriving DecidableEq

/-- `VSFERR_NONE`, `VSFERR_FAIL` and `VSFERR_NOT_SUPPORT`. -/
inductive Err
  | none
  | fail
  | notSupport
  deriving DecidableEq

/-- A byte of the buffer, whose zero is at `z`. -/
def readAt (z : ℕ) (m : Mem) (p : ℕ) : Option UInt8 := if p ≤ z then some (m p) else none

def writeAt (z : ℕ) (m : Mem) (p : ℕ) (b : UInt8) : Option Mem := if p ≤ z then some (write m p [b]) else none

/-- `!memcmp(rdptr, bs, sizeof(bs) - 1)`, which reads all of the bytes. -/
def memcmp (z : ℕ) (m : Mem) (bs : List UInt8) : Option Bool :=
  if bs.length ≤ z + 1 then some (text m bs.length = bs) else none

/-- `vsfip_httpd_hex`. -/
def hex (c : UInt8) : UInt8 :=
  if 48 ≤ c ∧ c ≤ 57 then c - 48
  else if 65 ≤ c ∧ c ≤ 70 then c - 65 + 10
  else if 97 ≤ c ∧ c ≤ 102 then c - 97 + 10
  else 0

/-- What the scan works on. -/
structure Scan where
  mem : Mem
  rdptr : ℕ
  strtmp : ℕ
  arg : Option ℕ

/-- The loop that decodes the target, and whether it came to a white space. -/
def scanLoop (z : ℕ) : ℕ → Scan → Option (Bool × Scan)
  | 0, _ => none
  | n + 1, s => do
    let c ← readAt z s.mem s.rdptr
    if isSpace c then some (true, s)
    else if c = 63 then
      let mem ← writeAt z s.mem s.strtmp 0
      scanLoop z n ⟨mem, s.rdptr + 1, s.rdptr + 1, some (s.rdptr + 1)⟩
    else if c = 37 then
      let a ← readAt z s.mem (s.rdptr + 1)
      if a = 0 then some (false, s)
      else
        let b ← readAt z s.mem (s.rdptr + 2)
        if b = 0 then some (false, s)
        else
          let mem ← writeAt z s.mem s.strtmp ((hex a <<< 4) + hex b)
          scanLoop z n ⟨mem, s.rdptr + 3, s.strtmp + 1, s.arg⟩
    else
      let mem ← writeAt z s.mem s.strtmp c
      scanLoop z n ⟨mem, s.rdptr + 1, s.strtmp + 1, s.arg⟩

/-- The string at `p` of the buffer. -/
def stringAt (z : ℕ) (m : Mem) (p : ℕ) : Option (List UInt8) := strAt m (z + 1 - p) p

/-- `"\r\n"` and `"\r\n\r\n"`. -/
def crlf : List UInt8 := ascii "\r\n"
def blank : List UInt8 := ascii "\r\n\r\n"

/-- `vsfip_httpd_getnextline`. -/
def getnextline (z : ℕ) (m : Mem) (p : ℕ) : Option (Option ℕ) := do
  let t ← stringAt z m p
  match strstr crlf t with
  | none => some none
  | some i =>
    let c ← readAt z m (p + i + 2)
    some (if c = 0 then none else some (p + i + 2))

/-- The part of `vsfip_httpd_parse_req` behind the method. -/
def parseTarget (z : ℕ) (m : Mem) (req : Req) (method : Method) : Option (Err × Req × Mem) := do
  let p := method.head.length
  let (found, s) ← scanLoop z (z + 2) ⟨m, p, p, req.arg⟩
  let req := { req with req := method, url := .buffer p, arg := s.arg }
  if found = false then some (.fail, req, s.mem)
  else
    let mem ← writeAt z s.mem s.rdptr 0
    let url ← stringAt z mem p
    let req := if url = [47] then { req with url := .homepage } else req
    match ← getnextline z mem (s.rdptr + 1) with
    | none => some (.none, req, mem)
    | some head =>
      let t ← stringAt z mem head
      some (.none, { req with head := some head, body := (strstr blank t).map (head + · + 4) }, mem)

/-- `vsfip_httpd_parse_req`; no result if it goes behind the zero at `z`. -/
def parseReq (z : ℕ) (m : Mem) (req : Req) : Option (Err × Req × Mem) := do
  if ← memcmp z m Method.get.head then parseTarget z m req .get
  else if ← memcmp z m Method.post.head then parseTarget z m req .post
  else some (.notSupport, req, m)

/-! ### Requests -/

/-- A hexadecimal digit. -/
structure Digit where
  value : Fin 16
  upper : Bool

def Digit.char (d : Digit) : UInt8 :=
  if d.value < 10 then 48 + UInt8.ofNat d.value else (if d.upper then 55 else 87) + UInt8.ofNat d.value

/-- A character of a target, or an escape. -/
inductive Tok
  | plain (c : UInt8) (h : isSpace c = false ∧ c ≠ 63 ∧ c ≠ 37)
  | esc (hi lo : Digit)

def Tok.text : Tok → List UInt8
  | .plain c _ => [c]
  | .esc hi lo => [37, hi.char, lo.char]

def textOf (ts : List Tok) : List UInt8 := ts.flatMap Tok.text

/-- What it decodes to. -/
def Tok.value : Tok → UInt8
  | .plain c _ => c
  | .esc hi lo => UInt8.ofNat (16 * hi.value + lo.value)

def Tok.isEsc : Tok → Bool
  | .plain _ _ => false
  | .esc _ _ => true

structure Request where
  method : Method
  path : List Tok
  query : Option (List Tok)
  rest : List UInt8

/-- What is in front of `rest`. -/
def Request.line (r : Request) : List UInt8 :=
  r.method.head ++ textOf r.path ++ (match r.query with
    | none => []
    | some q => 63 :: textOf q) ++ [32]

def Request.text (r : Request) : List UInt8 := r.line ++ r.rest

/-- The request as it should be parsed. -/
structure Parsed (r : Request) (z : ℕ) (m : Mem) (req : Req) : Prop where
  method : req.req = r.method
  url : if said (r.path.map Tok.value) = [47] then req.url = .homepage
    else ∃ p, req.url = .buffer p ∧ stringAt z m p = some (said (r.path.map Tok.value))
  arg : ∀ q ∈ r.query, ∃ p, req.arg = some p ∧ stringAt z m p = some (said (q.map Tok.value))
  head : ∀ i, strstr crlf r.rest = some i → r.rest.drop (i + 2) ≠ [] → req.head = some (r.line.length + i + 2)
  body : ∀ i, strstr blank r.rest = some i → req.body = some (r.line.length + i + 4)

/-- The part of the target that is last. -/
def Request.last (r : Request) : List Tok := r.query.getD r.path

/-- The last part ends where it should, and the blank line is not the first. -/
structure Request.Plain (r : Request) : Prop where
  last : (∀ t ∈ r.last, t.isEsc = false) ∨ 0 ∈ r.last.map Tok.value
  headed : ∀ i, strstr crlf r.rest = some i → ¬ crlf <+: r.rest.drop (i + 2)

/-- A white space, or an escape that is cut off, is in front of the zero. -/
def Ends : List UInt8 → Prop
  | [] => False
  | c :: cs =>
    if isSpace c then True
    else if c = 37 then
      match cs with
      | _ :: _ :: cs => Ends cs
      | _ => True
    else Ends cs

/-- The buffer is long enough to be compared, and the scan ends in it. -/
structure Bounded (s : List UInt8) : Prop where
  long : 4 ≤ s.length
  ends : ∀ method : Method, method.head <+: s → Ends (s.drop method.head.length)

variable {z n : ℕ} {m : Mem} {s : Scan} {t : List UInt8}

/-! ### A round of the scan -/

variable {p a : ℕ} {xs us rest : List UInt8} {ts : List Tok} {r : Request}

theorem readAt_some (h : p ≤ z) : readAt z m p = some (m p) := if_pos h

theorem writeAt_some (b : UInt8) (h : p ≤ z) : writeAt z m p b = some (write m p [b]) := if_pos h

theorem scan_space (hz : s.rdptr ≤ z) (hc : isSpace (s.mem s.rdptr) = true) : scanLoop z (n + 1) s = some (true, s) := by
  rw [scanLoop, readAt_some hz, bind_eq_bind, bind_some, if_pos hc]

theorem scan_query (hz : s.rdptr ≤ z) (hle : s.strtmp ≤ s.rdptr) (hc : s.mem s.rdptr = 63) :
    scanLoop z (n + 1) s = scanLoop z n ⟨write s.mem s.strtmp [0], s.rdptr + 1, s.rdptr + 1, some (s.rdptr + 1)⟩ := by
  rw [scanLoop, readAt_some hz, bind_eq_bind, bind_some, hc, if_neg (by decide), if_pos rfl,
    writeAt_some _ (hle.trans hz), bind_eq_bind, bind_some]

theorem scan_plain (hz : s.rdptr ≤ z) (hle : s.strtmp ≤ s.rdptr)
    (hc : isSpace (s.mem s.rdptr) = false ∧ s.mem s.rdptr ≠ 63 ∧ s.mem s.rdptr ≠ 37) :
    scanLoop z (n + 1) s = scanLoop z n ⟨write s.mem s.strtmp [s.mem s.rdptr], s.rdptr + 1, s.strtmp + 1, s.arg⟩ := by
  rw [scanLoop, readAt_some hz, bind_eq_bind, bind_some, if_neg (by rw [hc.1]; decide), if_neg hc.2.1,
    if_neg hc.2.2, writeAt_some _ (hle.trans hz), bind_eq_bind, bind_some]

theorem scan_esc (hz : s.rdptr + 2 ≤ z) (hle : s.strtmp ≤ s.rdptr) (hc : s.mem s.rdptr = 37)
    (ha : s.mem (s.rdptr + 1) ≠ 0) (hb : s.mem (s.rdptr + 2) ≠ 0) :
    scanLoop z (n + 1) s = scanLoop z n
      ⟨write s.mem s.strtmp [(hex (s.mem (s.rdptr + 1)) <<< 4) + hex (s.mem (s.rdptr + 2))], s.rdptr + 3, s.strtmp + 1, s.arg⟩ := by
  rw [scanLoop, readAt_some (by omega), bind_eq_bind, bind_some, hc, if_neg (by decide), if_neg (by decide),
    if_pos rfl, readAt_some (by omega), bind_eq_bind, bind_some, if_neg ha, readAt_some hz,
    bind_some, if_neg hb, writeAt_some _ (by omega), bind_some]

theorem scan_cut (hz : s.rdptr + 1 ≤ z) (hc : s.mem s.rdptr = 37)
    (h : s.mem (s.rdptr + 1) = 0 ∨ s.rdptr + 2 ≤ z ∧ s.mem (s.rdptr + 2) = 0) : scanLoop z (n + 1) s = some (false, s) := by
  rw [scanLoop, readAt_some (by omega), bind_eq_bind, bind_some, hc, if_neg (by decide), if_neg (by decide),
    if_pos rfl, readAt_some hz, bind_eq_bind, bind_some]
  by_cases ha : s.mem (s.rdptr + 1) = 0
  · rw [if_pos ha]
  · obtain ⟨hz2, hb⟩ := h.resolve_left ha
    rw [if_neg ha, readAt_some hz2, bind_some, if_pos hb]

theorem scan_zero (hz : s.rdptr = z) (hle : s.strtmp ≤ s.rdptr) (hc : s.mem s.rdptr = 0) : scanLoop z (n + 1) s = none := by
  rw [scan_plain (by omega) hle (by rw [hc]; decide)]
  cases n with
  | zero => rfl
  | succ n =>
    have hout : readAt z (write s.mem s.strtmp [s.mem s.rdptr]) (s.rdptr + 1) = none := if_neg (by omega)
    rw [scanLoop, hout]
    rfl

/-! ### Digits -/

theorem hex_char : ∀ (v : Fin 16) (u : Bool), hex (Digit.char ⟨v, u⟩) = UInt8.ofNat v ∧ Digit.char ⟨v, u⟩ ≠ 0 := by decide

theorem hex_value : ∀ a b : Fin 16, (UInt8.ofNat a <<< 4) + UInt8.ofNat b = UInt8.ofNat (16 * a + b) := by decide

/-! ### A part of a target -/

theorem textOf_cons (t : Tok) (ts : List Tok) : textOf (t :: ts) = t.text ++ textOf ts := flatMap_cons

theorem length_toks (ts : List Tok) : ts.length ≤ (textOf ts).length := by
  induction ts with
  | nil => exact le_refl _
  | cons t ts ih =>
    rw [textOf_cons, length_append, length_cons]
    cases t with
    | plain => simp only [Tok.text, length_singleton]; omega
    | esc => simp only [Tok.text, length_cons, length_nil]; omega

theorem scan_tok (t : Tok) {rest : List UInt8} (hold : Holds s.mem s.rdptr (t.text ++ rest)) (hle : s.strtmp ≤ s.rdptr)
    (hz : s.rdptr + t.text.length ≤ z) :
    scanLoop z (n + 1) s = scanLoop z n ⟨write s.mem s.strtmp [t.value], s.rdptr + t.text.length, s.strtmp + 1, s.arg⟩ ∧
      Holds (write s.mem s.strtmp [t.value]) (s.rdptr + t.text.length) rest ∧ s.strtmp + 1 ≤ s.rdptr + t.text.length := by
  obtain ⟨htext, hrest⟩ := holds_append.mp hold
  cases t with
  | plain c hc =>
    have hz : s.rdptr + 1 ≤ z := hz
    have hget : s.mem s.rdptr = c := (holds_cons.mp htext).1
    have hnext := scan_plain (n := n) (z := z) (s := s) (by omega) hle (by rw [hget]; exact hc)
    rw [hget] at hnext
    exact ⟨hnext, holds_write_apart hrest (.inl (by show s.strtmp + 1 ≤ s.rdptr + 1; omega)), by
      show s.strtmp + 1 ≤ s.rdptr + 1
      omega⟩
  | esc hi lo =>
    have hz : s.rdptr + 3 ≤ z := hz
    obtain ⟨hget, htext⟩ := holds_cons.mp htext
    obtain ⟨hgeta, htext⟩ := holds_cons.mp htext
    obtain ⟨hgetb, -⟩ := holds_cons.mp htext
    obtain ⟨hhi, hhi0⟩ := hex_char hi.value hi.upper
    obtain ⟨hlo, hlo0⟩ := hex_char lo.value lo.upper
    have hnext := scan_esc (n := n) (z := z) (s := s) (by omega) hle hget (by rw [hgeta]; exact hhi0) (by rw [hgetb]; exact hlo0)
    rw [hgeta, hgetb, hhi, hlo, hex_value] at hnext
    exact ⟨hnext, holds_write_apart hrest (.inl (by show s.strtmp + 1 ≤ s.rdptr + 3; omega)), by
      show s.strtmp + 1 ≤ s.rdptr + 3
      omega⟩

/-- **A part of a target** is decoded in place, the rest left. -/
theorem scan_toks : ∀ (ts : List Tok) (s : Scan) {rest : List UInt8}, Holds s.mem s.rdptr (textOf ts ++ rest) →
    s.strtmp ≤ s.rdptr → s.rdptr + (textOf ts).length ≤ z →
      scanLoop z (n + ts.length) s = scanLoop z n
        ⟨write s.mem s.strtmp (ts.map Tok.value), s.rdptr + (textOf ts).length, s.strtmp + ts.length, s.arg⟩
  | [], s, _, _, _, _ => by simp [textOf]
  | t :: ts, s, rest, hold, hle, hz => by
    rw [textOf_cons, append_assoc] at hold
    rw [textOf_cons, length_append] at hz
    obtain ⟨hnext, hhold, hle'⟩ := scan_tok t hold hle (by omega : s.rdptr + t.text.length ≤ z)
    rw [length_cons, ← add_assoc, hnext, scan_toks ts _ hhold hle' (by dsimp only; omega), map_cons, ← write_cons,
      textOf_cons, length_append, add_assoc s.rdptr, add_assoc s.strtmp, add_comm 1]

/-! ### Any buffer -/

/-- A scan came to a place before the zero, the rest is left. -/
structure Went (z : ℕ) (s s' : Scan) : Prop where
  on : s.rdptr ≤ s'.rdptr
  inside : s'.rdptr < z
  same : ∀ i, s'.rdptr ≤ i → s'.mem i = s.mem i

theorem Went.step {s' : Scan} {b : UInt8} {k tmp : ℕ} {arg : Option ℕ}
    (h : Went z ⟨write s.mem s.strtmp [b], s.rdptr + (k + 1), tmp, arg⟩ s') (hle : s.strtmp ≤ s.rdptr) : Went z s s' := by
  obtain ⟨hon, hin, hsame⟩ := h
  dsimp only at hon
  refine ⟨by omega, hin, fun i hi => ?_⟩
  rw [hsame i hi]
  exact write_ge (by rw [length_singleton]; omega)

theorem ends_space {c : UInt8} (h : isSpace c = true) (cs : List UInt8) : Ends (c :: cs) := by
  rw [Ends.eq_def]
  dsimp only
  rw [if_pos h]
  trivial

theorem ends_plain {c : UInt8} (h : isSpace c = false) (h37 : c ≠ 37) (cs : List UInt8) : Ends (c :: cs) ↔ Ends cs := by
  rw [Ends.eq_def]
  dsimp only
  rw [if_neg (by rw [h]; decide), if_neg h37]

theorem ends_esc (a b : UInt8) (cs : List UInt8) : Ends (37 :: a :: b :: cs) ↔ Ends cs := by
  rw [Ends.eq_def]
  dsimp only
  rw [if_neg (by decide), if_pos rfl]

theorem ends_cut {cs : List UInt8} (h : cs.length < 2) : Ends (37 :: cs) := by
  rw [Ends.eq_def]
  dsimp only
  rw [if_neg (by decide), if_pos rfl]
  cases cs with
  | nil => trivial
  | cons a cs =>
    cases cs with
    | nil => trivial
    | cons b cs => exact absurd h (by simp)

/-- **The scan of any buffer** ends in front of the zero, or goes on behind it. -/
theorem scan_ends : ∀ (n : ℕ) {t : List UInt8} {s : Scan}, Holds s.mem s.rdptr (t ++ [0]) → 0 ∉ t → s.rdptr + t.length = z →
    s.strtmp ≤ s.rdptr → t.length < n →
      (Ends t → ∃ b s', scanLoop z n s = some (b, s') ∧ (b = true → Went z s s')) ∧ (¬ Ends t → scanLoop z n s = none)
  | 0, _, _, _, _, _, _, hn => absurd hn (Nat.not_lt_zero _)
  | n + 1, [], s, hold, _, hz, hle, _ => by
    have hc : s.mem s.rdptr = 0 := (holds_cons.mp hold).1
    exact ⟨fun h => h.elim, fun _ => scan_zero (by simpa using hz) hle hc⟩
  | n + 1, c :: cs, s, hold, h0, hz, hle, hn => by
    obtain ⟨hc, hcs⟩ := holds_cons.mp hold
    rw [length_cons] at hz hn
    have h0cs : 0 ∉ cs := fun hm => h0 (mem_cons_of_mem _ hm)
    -- what a round that goes on leaves to the next one
    have hgo : ∀ {b : UInt8} {k tmp : ℕ} {arg : Option ℕ} {us : List UInt8}, Holds s.mem (s.rdptr + (k + 1)) (us ++ [0]) →
        0 ∉ us → s.rdptr + (k + 1) + us.length = z → tmp ≤ s.rdptr + (k + 1) →
        (Ends us → ∃ b' s', scanLoop z n ⟨write s.mem s.strtmp [b], s.rdptr + (k + 1), tmp, arg⟩ = some (b', s') ∧
          (b' = true → Went z s s')) ∧
        (¬ Ends us → scanLoop z n ⟨write s.mem s.strtmp [b], s.rdptr + (k + 1), tmp, arg⟩ = none) := by
      intro b k tmp arg us hus hus0 huz htmp
      have hwrite : Holds (write s.mem s.strtmp [b]) (s.rdptr + (k + 1)) (us ++ [0]) :=
        holds_write_apart hus (.inl (by rw [length_singleton]; omega))
      obtain ⟨hends, hnone⟩ := scan_ends n (s := ⟨write s.mem s.strtmp [b], s.rdptr + (k + 1), tmp, arg⟩) hwrite hus0 huz htmp
        (by omega)
      refine ⟨fun h => ?_, hnone⟩
      obtain ⟨b', s', hs', hwent⟩ := hends h
      exact ⟨b', s', hs', fun hb => (hwent hb).step hle⟩
    by_cases hspace : isSpace c = true
    · refine ⟨fun _ => ⟨true, s, scan_space (by omega) (by rw [hc]; exact hspace), fun _ => ?_⟩,
        fun h => absurd (ends_space hspace cs) h⟩
      exact ⟨le_refl _, by omega, fun _ _ => rfl⟩
    have hspace : isSpace c = false := Bool.eq_false_iff.mpr hspace
    by_cases h63 : c = 63
    · rw [scan_query (by omega) hle (by rw [hc]; exact h63), ends_plain hspace (by rw [h63]; decide)]
      exact hgo hcs h0cs (by omega) (le_refl _)
    by_cases h37 : c = 37
    · subst h37
      have hcut : ∀ us : List UInt8, us.length < 2 → (s.mem (s.rdptr + 1) = 0 ∨ s.rdptr + 2 ≤ z ∧ s.mem (s.rdptr + 2) = 0) →
          (Ends (37 :: us) → ∃ b s', scanLoop z (n + 1) s = some (b, s') ∧ (b = true → Went z s s')) ∧
            (¬ Ends (37 :: us) → scanLoop z (n + 1) s = none) := by
        intro us hlen hzero
        refine ⟨fun _ => ⟨false, s, scan_cut (by omega) hc hzero, fun h => by cases h⟩, fun h => absurd (ends_cut hlen) h⟩
      cases cs with
      | nil => exact hcut [] (by decide) (.inl (holds_cons.mp hcs).1)
      | cons a cs =>
        obtain ⟨ha, hcs⟩ := holds_cons.mp hcs
        cases cs with
        | nil =>
          have h0 : s.mem (s.rdptr + 1 + 1) = 0 := (holds_cons.mp hcs).1
          exact hcut [a] (Nat.lt_succ_self 1) (.inr ⟨by rw [← hz]; exact le_refl _, h0⟩)
        | cons b us =>
          obtain ⟨hb, hus⟩ := holds_cons.mp hcs
          have ha0 : a ≠ 0 := fun he => h0cs (he ▸ mem_cons_self)
          have hb0 : b ≠ 0 := fun he => h0cs (he ▸ mem_cons_of_mem _ mem_cons_self)
          have hus0 : 0 ∉ us := fun hm => h0cs (mem_cons_of_mem _ (mem_cons_of_mem _ hm))
          rw [length_cons, length_cons] at hz
          have hb : s.mem (s.rdptr + 2) = b := hb
          rw [scan_esc (by omega) hle hc (by rw [ha]; exact ha0) (by rw [hb]; exact hb0), ends_esc]
          exact hgo hus hus0 (by omega) (by omega)
    · rw [scan_plain (by omega) hle (by rw [hc]; exact ⟨hspace, h63, h37⟩), ends_plain hspace h37]
      exact hgo hcs h0cs (by omega) (by omega)

theorem stringAt_some (h0 : m z = 0) (hp : p ≤ z) : ∃ t, stringAt z m p = some t ∧ p + t.length ≤ z := by
  obtain ⟨t, ht, hle, -⟩ := strAt_some hp (by omega : z < p + (z + 1 - p)) h0
  exact ⟨t, ht, hle⟩

theorem getnextline_some (h0 : m z = 0) (hp : p ≤ z) : ∃ r, getnextline z m p = some r ∧ ∀ q ∈ r, q ≤ z := by
  obtain ⟨t, ht, hle⟩ := stringAt_some h0 hp
  unfold getnextline
  rw [ht, bind_eq_bind, bind_some]
  cases hfind : strstr crlf t with
  | none => exact ⟨none, rfl, fun q hq => by cases hq⟩
  | some i =>
    have hi : i + 2 ≤ t.length := strstr_le hfind
    have hq : p + i + 2 ≤ z := by omega
    dsimp only
    rw [readAt_some hq, bind_eq_bind, bind_some]
    split_ifs
    · exact ⟨none, rfl, fun q hq => by cases hq⟩
    · exact ⟨some (p + i + 2), rfl, fun q hq' => by rw [← some.inj hq']; exact hq⟩

theorem str_holds (h : Str m xs) : Holds m 0 (xs ++ [0]) := by
  refine holds_append.mpr ⟨fun i hi => ?_, ?_⟩
  · rw [zero_add]
    exact h.bytes i hi
  · rw [zero_add]
    exact holds_cons.mpr ⟨h.zero, holds_nil _ _⟩

/-- `url` as it is left: of a target that is `/` it is `homepage`. -/
def urlOf (p : ℕ) (url : List UInt8) : Url := if url = [47] then .homepage else .buffer p

/-- What follows a scan that came to a white space. -/
theorem parseTarget_found {method : Method} {req : Req} {url : List UInt8} {line : Option ℕ}
    (hs : scanLoop z (z + 2) ⟨m, method.head.length, method.head.length, req.arg⟩ = some (true, s)) (hz : s.rdptr ≤ z)
    (hurl : stringAt z (write s.mem s.rdptr [0]) method.head.length = some url)
    (hline : getnextline z (write s.mem s.rdptr [0]) (s.rdptr + 1) = some line) :
    parseTarget z m req method =
      line.elim (some (.none, ⟨method, urlOf method.head.length url, s.arg, req.head, req.body⟩, write s.mem s.rdptr [0]))
        fun head => (stringAt z (write s.mem s.rdptr [0]) head).map fun t =>
          (.none, ⟨method, urlOf method.head.length url, s.arg, some head, (strstr blank t).map (head + · + 4)⟩,
            write s.mem s.rdptr [0]) := by
  unfold urlOf
  simp only [parseTarget, hs, writeAt_some _ hz, hurl, hline, bind_eq_bind, bind_some]
  rw [if_neg (by decide)]
  cases line with
  | none => split_ifs <;> rfl
  | some head =>
    cases hh : stringAt z (write s.mem s.rdptr [0]) head with
    | none => simp [hh]
    | some t => split_ifs <;> simp [hh]

/-- **The part behind the method** stays inside just when the scan ends inside. -/
theorem parseTarget_isSome (method : Method) {xs : List UInt8} (h : Str m (method.head ++ xs)) (req : Req) :
    (parseTarget (method.head ++ xs).length m req method).isSome = true ↔ Ends xs := by
  have hold := str_holds h
  rw [append_assoc, holds_append, zero_add] at hold
  have h0 : 0 ∉ xs := fun hm => h.nonzero (mem_append_right _ hm)
  have hz : method.head.length + xs.length = (method.head ++ xs).length := length_append.symm
  obtain ⟨hends, hnone⟩ := scan_ends ((method.head ++ xs).length + 2) (s := ⟨m, method.head.length, method.head.length, req.arg⟩)
    hold.2 h0 hz (le_refl _) (by omega)
  have hzero := h.zero
  generalize (method.head ++ xs).length = z at *
  constructor
  · intro hsome
    by_contra hno
    simp [parseTarget, hnone hno] at hsome
  · intro h'
    obtain ⟨found, s, hs, hwent⟩ := hends h'
    cases found with
    | false => simp [parseTarget, hs]
    | true =>
      obtain ⟨hon, hin, hsame⟩ := hwent rfl
      have hlast : write s.mem s.rdptr [0] z = 0 := by
        rw [write_ge (by rw [length_singleton]; omega), hsame z hin.le]
        exact hzero
      obtain ⟨url, hurl, -⟩ := stringAt_some hlast (show method.head.length ≤ z by dsimp only at hon; omega)
      obtain ⟨line, hline, hle⟩ := getnextline_some hlast (show s.rdptr + 1 ≤ z by omega)
      rw [parseTarget_found hs hin.le hurl hline]
      cases line with
      | none => rfl
      | some head =>
        obtain ⟨t, ht, -⟩ := stringAt_some hlast (hle head rfl)
        rw [elim_some, ht]
        rfl

/-! ### The method -/

theorem memcmp_eq (h : Str m xs) (method : Method) :
    memcmp xs.length m method.head = if method.head.length ≤ xs.length + 1 then some (decide (method.head <+: xs)) else none := by
  have h0 : 0 ∉ method.head := by
    cases method with
    | get => decide
    | post => decide
  unfold memcmp
  split_ifs
  · rw [decide_eq_decide.mpr (h.text_eq h0)]
  · rfl

theorem length_head : Method.get.head.length = 4 ∧ Method.post.head.length = 5 := ⟨rfl, rfl⟩

theorem head_inj {a b : Method} (ha : a.head <+: xs) (hb : b.head <+: xs) : a = b := by
  have hprefix := prefix_or_prefix_of_prefix ha hb
  cases a with
  | get =>
    cases b with
    | get => rfl
    | post => exact absurd hprefix (by decide)
  | post =>
    cases b with
    | get => exact absurd hprefix (by decide)
    | post => rfl

theorem parseReq_method (method : Method) {xs : List UInt8} (h : Str m (method.head ++ xs)) (req : Req) :
    parseReq (method.head ++ xs).length m req = parseTarget (method.head ++ xs).length m req method := by
  have hself : method.head <+: method.head ++ xs := prefix_append _ _
  have hlen := hself.length_le
  unfold parseReq
  rw [memcmp_eq h, memcmp_eq h]
  cases method with
  | get =>
    rw [if_pos (by omega), bind_eq_bind, bind_some, decide_eq_true hself, if_pos rfl]
  | post =>
    have hother : ¬ Method.get.head <+: Method.post.head ++ xs := fun hp => absurd (head_inj hp hself) (by decide)
    rw [length_head.2] at hlen
    rw [if_pos (by rw [length_head.1]; omega), if_pos (by rw [length_head.2]; omega), bind_eq_bind, bind_some,
      decide_eq_false hother, if_neg (by decide), bind_some, decide_eq_true hself, if_pos rfl]

theorem parseReq_other (h : Str m xs) (hno : ∀ method : Method, ¬ method.head <+: xs) (req : Req) :
    parseReq xs.length m req = if 4 ≤ xs.length then some (.notSupport, req, m) else none := by
  unfold parseReq
  rw [memcmp_eq h, memcmp_eq h, decide_eq_false (hno .get), decide_eq_false (hno .post), length_head.1, length_head.2]
  by_cases h4 : 4 ≤ xs.length
  · rw [if_pos (by omega), if_pos (by omega), if_pos h4]
    rfl
  · rw [if_neg h4, if_neg (by omega : ¬ 5 ≤ xs.length + 1)]
    split_ifs <;> rfl

/-- **Any buffer** is not left just when it is long enough and the scan ends inside. -/
theorem parseReq_isSome (h : Str m xs) (req : Req) : (parseReq xs.length m req).isSome = true ↔ Bounded xs := by
  by_cases hmethod : ∃ method : Method, method.head <+: xs
  · obtain ⟨method, us, rfl⟩ := hmethod
    rw [parseReq_method method h, parseTarget_isSome method h]
    constructor
    · intro hends
      refine ⟨?_, fun b hb => ?_⟩
      · rw [length_append]
        cases method with
        | get => exact Nat.le_add_right 4 _
        | post => exact (Nat.le_succ 4).trans (Nat.le_add_right 5 _)
      · obtain rfl := head_inj hb (prefix_append method.head us)
        rwa [drop_left]
    · intro hbound
      have hends := hbound.ends method (prefix_append _ _)
      rwa [drop_left] at hends
  · have hno : ∀ method : Method, ¬ method.head <+: xs := fun method hp => hmethod ⟨method, hp⟩
    rw [parseReq_other h hno]
    split_ifs with h4
    · exact ⟨fun _ => ⟨h4, fun method hp => absurd hp (hno method)⟩, fun _ => rfl⟩
    · exact ⟨fun h => absurd h (by decide), fun hb => absurd hb.long h4⟩

/-! ### The header -/

theorem crlf_prefix : crlf <+: xs ↔ ∃ us, xs = 13 :: 10 :: us :=
  ⟨fun ⟨us, h⟩ => ⟨us, h.symm⟩, fun ⟨us, h⟩ => ⟨us, h.symm⟩⟩

theorem blank_at_crlf : blank <+: 13 :: 10 :: us ↔ crlf <+: us := prefix_append_right_inj crlf

/-- **The first blank line** is behind the first line, or behind one that follows. -/
theorem strstr_blank : ∀ {t : List UInt8}, (strstr crlf t = none → strstr blank t = none) ∧ ∀ i, strstr crlf t = some i →
    strstr blank t = if crlf <+: t.drop (i + 2) then some i else (strstr blank (t.drop (i + 2))).map (i + 2 + ·)
  | [] => ⟨fun _ => rfl, fun i h => by cases h⟩
  | x :: xs => by
    obtain ⟨ihnone, ihsome⟩ := @strstr_blank xs
    rw [strstr, strstr]
    by_cases hcr : crlf <+: x :: xs
    · obtain ⟨us, hus⟩ := crlf_prefix.mp hcr
      obtain ⟨rfl, rfl⟩ := cons_eq_cons.mp hus
      rw [if_pos hcr]
      refine ⟨fun h => absurd h (by simp), fun i h => ?_⟩
      obtain rfl := some.inj h
      have hlf : ¬ blank <+: 10 :: us := fun hp => absurd (cons_prefix_cons.mp hp).1 (by decide)
      have hdrop : (13 :: 10 :: us).drop (0 + 2) = us := rfl
      rw [hdrop, strstr, if_neg hlf]
      simp only [blank_at_crlf, Option.map_map]
      split_ifs
      · rfl
      · refine congrArg (fun f => Option.map f _) (funext fun k => ?_)
        simp only [Function.comp_apply]
        omega
    · have hno : ¬ blank <+: x :: xs := fun hp => hcr ((prefix_append crlf crlf).trans hp)
      rw [if_neg hcr, if_neg hno]
      constructor
      · intro h
        rw [ihnone (map_eq_none_iff.mp h)]
        rfl
      · intro i h
        obtain ⟨j, hj, rfl⟩ := map_eq_some_iff.mp h
        rw [ihsome j hj, show j + 1 + 2 = j + 2 + 1 by omega, drop_succ_cons]
        split_ifs
        · rfl
        · rw [Option.map_map]
          refine congrArg (fun f => Option.map f _) (funext fun k => ?_)
          simp only [Function.comp_apply]
          omega

theorem stringAt_of (h : Holds m p (xs ++ [0])) (hz : p + xs.length ≤ z) :
    stringAt z m p = some (said xs) := strAt_of h (by omega)

theorem header_spec {b : ℕ} (hold : Holds m b (rest ++ [0])) (h0 : 0 ∉ rest) (hz : b + rest.length = z)
    (method : Method) (url : Url) (arg : Option ℕ) (req : Req) :
    ∃ line head body, getnextline z m b = some line ∧
      (line.elim (some (Err.none, (⟨method, url, arg, req.head, req.body⟩ : Req), m)) fun head => (stringAt z m head).map fun t =>
        (Err.none, ⟨method, url, arg, some head, (strstr blank t).map (head + · + 4)⟩, m)) =
          some (Err.none, ⟨method, url, arg, head, body⟩, m) ∧
      (∀ i, strstr crlf rest = some i → rest.drop (i + 2) ≠ [] → head = some (b + i + 2)) ∧
      ((∀ i, strstr blank rest = some i → body = some (b + i + 4)) ↔
        ∀ i, strstr crlf rest = some i → ¬ crlf <+: rest.drop (i + 2)) := by
  have hstr := stringAt_of hold hz.le
  rw [said_eq h0] at hstr
  obtain ⟨hnone, hsome⟩ := @strstr_blank rest
  unfold getnextline
  rw [hstr, bind_eq_bind, bind_some]
  cases hfind : strstr crlf rest with
  | none =>
    refine ⟨none, req.head, req.body, rfl, rfl, fun i hi => (by cases hi), fun _ i hi => (by cases hi), fun _ i hi => ?_⟩
    rw [hnone hfind] at hi
    cases hi
  | some i =>
    have hi : i + 2 ≤ rest.length := strstr_le hfind
    have hb : b + i + 2 ≤ z := by omega
    have hdrop : Holds m (b + i + 2) (rest.drop (i + 2) ++ [0]) := by
      have hsplit := hold
      rw [← take_append_drop (i + 2) rest, append_assoc, holds_append, length_take, Nat.min_eq_left hi] at hsplit
      exact hsplit.2
    have hlen : (rest.drop (i + 2)).length = rest.length - (i + 2) := length_drop
    have h0drop : 0 ∉ rest.drop (i + 2) := fun hm => h0 (mem_of_mem_drop hm)
    have hblank := hsome i hfind
    dsimp only
    rw [readAt_some hb, bind_eq_bind, bind_some]
    cases hrest : rest.drop (i + 2) with
    | nil =>
      rw [hrest] at hdrop hblank
      have hzero : m (b + i + 2) = 0 := (holds_cons.mp hdrop).1
      rw [if_pos hzero]
      refine ⟨none, req.head, req.body, rfl, rfl, ?_, ?_, ?_⟩
      · intro j hj hne
        obtain rfl := some.inj hj
        exact absurd hrest hne
      · intro _ j hj hp
        obtain rfl := some.inj hj
        rw [hrest] at hp
        exact absurd hp (by decide)
      · intro _ j hj
        rw [hblank, if_neg (by decide)] at hj
        cases hj
    | cons x xs =>
      have hne : m (b + i + 2) ≠ 0 := by
        rw [hrest] at hdrop h0drop
        rw [(holds_cons.mp hdrop).1]
        exact fun he => h0drop (he ▸ mem_cons_self)
      have hread := stringAt_of hdrop (by omega : b + i + 2 + (rest.drop (i + 2)).length ≤ z)
      rw [said_eq h0drop] at hread
      rw [if_neg hne]
      refine ⟨some (b + i + 2), some (b + i + 2), (strstr blank (rest.drop (i + 2))).map (b + i + 2 + · + 4), rfl, ?_, ?_, ?_, ?_⟩
      · rw [elim_some, hread]
        rfl
      · intro j hj _
        rw [some.inj hj]
      · intro hall j hj hp
        obtain rfl := some.inj hj
        rw [if_pos hp] at hblank
        obtain ⟨k, -, hk⟩ := map_eq_some_iff.mp (hall i hblank)
        omega
      · intro hno j hj
        rw [if_neg (hno i rfl)] at hblank
        rw [hblank] at hj
        obtain ⟨k, hk, rfl⟩ := map_eq_some_iff.mp hj
        rw [hk, map_some]
        congr 1
        omega

/-! ### The parts of a request -/

/-- What is left of a part behind what it decodes to. -/
def stale (ts : List Tok) : List UInt8 := (textOf ts).drop ts.length

theorem stale_nil (ts : List Tok) : stale ts = [] ↔ ∀ t ∈ ts, t.isEsc = false := by
  have hlen : (textOf ts).length ≤ ts.length ↔ ∀ t ∈ ts, t.isEsc = false := by
    induction ts with
    | nil => simp [textOf]
    | cons t ts ih =>
      have hle := length_toks ts
      rw [textOf_cons, length_append, length_cons, forall_mem_cons, ← ih]
      cases t with
      | plain => simp only [Tok.text, Tok.isEsc, length_singleton, true_and]; omega
      | esc => simp only [Tok.text, Tok.isEsc, length_cons, length_nil, Bool.true_eq_false, false_and, iff_false]; omega
  rw [← hlen]
  exact drop_eq_nil_iff

/-- **The last part** is ended behind what is left of it. -/
theorem path_last (hold : Holds m a (textOf ts ++ 32 :: rest)) (hz : a + (textOf ts).length ≤ z) :
    stringAt z (write (write m a (ts.map Tok.value)) (a + (textOf ts).length) [0]) a =
      some (said (ts.map Tok.value ++ stale ts)) := by
  have hle := length_toks ts
  have hstale : (stale ts).length = (textOf ts).length - ts.length := length_drop
  have hsplit : Holds m (a + ts.length) (stale ts) := by
    have hsplit := (holds_append.mp hold).1
    rw [← take_append_drop ts.length (textOf ts), holds_append, length_take, Nat.min_eq_left hle] at hsplit
    exact hsplit.2
  have hvals : Holds (write m a (ts.map Tok.value)) a (ts.map Tok.value ++ stale ts) := by
    refine holds_append.mpr ⟨holds_write _ _ _, ?_⟩
    rw [length_map]
    exact holds_write_apart hsplit (.inl (by rw [length_map]))
  have hlen : (ts.map Tok.value ++ stale ts).length = (textOf ts).length := by
    rw [length_append, length_map, hstale]
    omega
  refine stringAt_of (holds_append.mpr ⟨holds_write_apart hvals (.inr (by rw [hlen])), ?_⟩) (by rw [hlen]; exact hz)
  rw [hlen]
  exact holds_write _ _ _

theorem last_iff (h0 : 0 ∉ textOf ts) :
    said (ts.map Tok.value ++ stale ts) = said (ts.map Tok.value) ↔ (∀ t ∈ ts, t.isEsc = false) ∨ 0 ∈ ts.map Tok.value := by
  have hstale : 0 ∉ stale ts := fun hm => h0 (mem_of_mem_drop hm)
  rw [said_append_iff hstale, stale_nil, or_comm]

/-- What the scan of a request leaves in front of its last part. -/
structure Scanned (r : Request) (before : Mem) (a : ℕ) (arg : Option ℕ) : Prop where
  hold : Holds before a (textOf r.last ++ 32 :: (r.rest ++ [0]))
  line : a + (textOf r.last).length + 1 = r.line.length
  bare : r.query = none → a = r.method.head.length
  part : ∀ q ∈ r.query, arg = some a ∧ r.method.head.length + r.path.length + 1 ≤ a ∧
    Holds before r.method.head.length (r.path.map Tok.value ++ [0])

theorem scan_last {before : Mem} (hold : Holds before a (textOf ts ++ 32 :: us))
    (hz : a + (textOf ts).length ≤ z) (hn : ts.length < n) (arg : Option ℕ) :
    scanLoop z n ⟨before, a, a, arg⟩ =
      some (true, ⟨write before a (ts.map Tok.value), a + (textOf ts).length, a + ts.length, arg⟩) := by
  have hle := length_toks ts
  obtain ⟨k, rfl⟩ := Nat.exists_eq_add_of_lt hn
  have htoks := scan_toks (n := k + 1) (z := z) ts ⟨before, a, a, arg⟩ hold (le_refl _) hz
  have hspace : write before a (ts.map Tok.value) (a + (textOf ts).length) = 32 := by
    rw [write_ge (by rw [length_map]; omega)]
    exact (holds_cons.mp (holds_append.mp hold).2).1
  rw [add_assoc, add_comm, htoks, scan_space hz (by dsimp only; rw [hspace]; decide)]

/-- **The scan of a request** decodes its parts and stops behind the last one. -/
theorem scan_request (h : Str m r.text) (arg₀ : Option ℕ) : ∃ before a arg, Scanned r before a arg ∧
    scanLoop r.text.length (r.text.length + 2) ⟨m, r.method.head.length, r.method.head.length, arg₀⟩ =
      some (true, ⟨write before a (r.last.map Tok.value), a + (textOf r.last).length, a + r.last.length, arg⟩) := by
  have hold := str_holds h
  obtain ⟨method, path, query, rest⟩ := r
  have hpath := length_toks path
  cases query with
  | none =>
    have htext : (⟨method, path, none, rest⟩ : Request).text = method.head ++ (textOf path ++ 32 :: rest) := by
      simp [Request.text, Request.line]
    have hlen : (⟨method, path, none, rest⟩ : Request).text.length = method.head.length + (textOf path).length + 1 + rest.length := by
      rw [htext]
      simp only [length_append, length_cons]
      omega
    have hz : method.head.length + (textOf path).length ≤ (⟨method, path, none, rest⟩ : Request).text.length := by omega
    have hn : path.length < (⟨method, path, none, rest⟩ : Request).text.length + 2 := by omega
    rw [htext, append_assoc, holds_append, zero_add, append_assoc, cons_append] at hold
    refine ⟨m, method.head.length, arg₀, ⟨hold.2, ?_, fun _ => rfl, fun q hq => by cases hq⟩, scan_last hold.2 hz hn arg₀⟩
    simp [Request.line, Request.last, add_assoc]
  | some q =>
    have hq := length_toks q
    have htext : (⟨method, path, some q, rest⟩ : Request).text =
        method.head ++ (textOf path ++ 63 :: (textOf q ++ 32 :: rest)) := by
      simp [Request.text, Request.line]
    have hlen : (⟨method, path, some q, rest⟩ : Request).text.length =
        method.head.length + (textOf path).length + 1 + (textOf q).length + 1 + rest.length := by
      rw [htext]
      simp only [length_append, length_cons]
      omega
    have hz : method.head.length + (textOf path).length ≤ (⟨method, path, some q, rest⟩ : Request).text.length := by omega
    have hzq : method.head.length + (textOf path).length + 1 + (textOf q).length ≤
        (⟨method, path, some q, rest⟩ : Request).text.length := by omega
    obtain ⟨k, hk⟩ : ∃ k, (⟨method, path, some q, rest⟩ : Request).text.length + 2 = k + 1 + path.length ∧ q.length < k :=
      ⟨(⟨method, path, some q, rest⟩ : Request).text.length + 1 - path.length, by omega, by omega⟩
    rw [htext, append_assoc, holds_append, zero_add, append_assoc, cons_append, append_assoc,
      cons_append] at hold
    obtain ⟨-, hold⟩ := hold
    obtain ⟨-, hquery⟩ := holds_append.mp hold
    obtain ⟨hmark, hquery⟩ := holds_cons.mp hquery
    have hvals : (path.map Tok.value).length = path.length := length_map _
    have htoks := scan_toks (n := k + 1) path ⟨m, method.head.length, method.head.length, arg₀⟩ hold (le_refl _) hz
    have hnext := scan_query (n := k) (s := ⟨write m method.head.length (path.map Tok.value),
      method.head.length + (textOf path).length, method.head.length + path.length, arg₀⟩) hz (Nat.add_le_add_left hpath _)
      (by dsimp only; rw [write_ge (by omega)]; exact hmark)
    have hbefore : Holds (write (write m method.head.length (path.map Tok.value)) (method.head.length + path.length) [0])
        (method.head.length + (textOf path).length + 1) (textOf q ++ 32 :: (rest ++ [0])) :=
      holds_write_apart (holds_write_apart hquery (.inl (by omega))) (.inl (by rw [length_singleton]; omega))
    refine ⟨_, _, some (method.head.length + (textOf path).length + 1), ⟨hbefore, ?_, fun h => absurd h (by simp), ?_⟩, ?_⟩
    · simp [Request.line, Request.last]
      omega
    · intro q' hq'
      refine ⟨rfl, by dsimp only; omega, holds_append.mpr ⟨?_, ?_⟩⟩
      · exact holds_write_apart (holds_write _ _ _) (.inr (by dsimp only; omega))
      · rw [hvals]
        exact holds_write _ _ _
    · rw [hk.1, htoks, hnext]
      exact scan_last hbefore hzq hk.2 _

/-! ### What is parsed -/

theorem urlOf_iff {u v : List UInt8} (hu : stringAt z m p = some u) :
    (if v = [47] then urlOf p u = .homepage else ∃ p', urlOf p u = .buffer p' ∧ stringAt z m p' = some v) ↔ u = v := by
  unfold urlOf
  by_cases hv : v = [47]
  · rw [if_pos hv, hv]
    split_ifs with h
    · exact ⟨fun _ => h, fun _ => rfl⟩
    · exact ⟨fun h' => absurd h' (by simp), fun h' => absurd h' h⟩
  · rw [if_neg hv]
    constructor
    · rintro ⟨p', hp', hstr⟩
      split_ifs at hp' with h
      obtain rfl := Url.buffer.inj hp'
      exact some.inj (hu.symm.trans hstr)
    · rintro rfl
      exact ⟨p, if_neg hv, hu⟩

theorem Request.last_sub (h : 0 ∉ r.text) : 0 ∉ textOf r.last := by
  intro hm
  refine h (mem_append_left _ (mem_append_left _ ?_))
  unfold Request.last at hm
  cases hq : r.query with
  | none =>
    rw [hq] at hm
    exact mem_append_left _ (mem_append_right _ hm)
  | some q =>
    rw [hq] at hm
    exact mem_append_right _ (mem_cons_of_mem _ hm)

/-- What the call makes of a request; `u` is the string at the target. -/
structure Result (r : Request) (z : ℕ) (m : Mem) (req : Req) (u : List UInt8) : Prop where
  method : req.req = r.method
  url : req.url = urlOf r.method.head.length u
  target : stringAt z m r.method.head.length = some u
  bare : r.query = none → u = said (r.path.map Tok.value ++ stale r.path)
  part : ∀ q ∈ r.query, u = said (r.path.map Tok.value) ∧
    ∃ a, req.arg = some a ∧ stringAt z m a = some (said (q.map Tok.value ++ stale q))
  head : ∀ i, strstr crlf r.rest = some i → r.rest.drop (i + 2) ≠ [] → req.head = some (r.line.length + i + 2)
  body : (∀ i, strstr blank r.rest = some i → req.body = some (r.line.length + i + 4)) ↔
    ∀ i, strstr crlf r.rest = some i → ¬ crlf <+: r.rest.drop (i + 2)

theorem Request.text_eq (r : Request) : ∃ xs, r.text = r.method.head ++ xs := by
  refine ⟨textOf r.path ++ (match r.query with
    | none => []
    | some q => 63 :: textOf q) ++ [32] ++ r.rest, ?_⟩
  simp only [Request.text, Request.line, append_assoc]

theorem parseReq_request (h : Str m r.text) (req : Req) :
    ∃ req' m' u, parseReq r.text.length m req = some (.none, req', m') ∧ Result r r.text.length m' req' u := by
  obtain ⟨before, a, arg, ⟨hold, hline, hbare, hpart⟩, hscan⟩ := scan_request h req.arg
  have hz : r.line.length + r.rest.length = r.text.length := length_append.symm
  have h0 : 0 ∉ r.rest := fun hm => h.nonzero (mem_append_right _ hm)
  have hparse : parseReq r.text.length m req = parseTarget r.text.length m req r.method := by
    obtain ⟨xs, hxs⟩ := r.text_eq
    rw [hxs] at h ⊢
    exact parseReq_method r.method h req
  have hlastz : a + (textOf r.last).length ≤ r.text.length := by omega
  have hlen : (r.last.map Tok.value).length ≤ (textOf r.last).length := by
    rw [length_map]
    exact length_toks r.last
  have hread := path_last hold hlastz
  have hrest : Holds (write (write before a (r.last.map Tok.value)) (a + (textOf r.last).length) [0]) r.line.length (r.rest ++ [0]) := by
    have htail := (holds_cons.mp (holds_append.mp hold).2).2
    rw [← hline]
    exact holds_write_apart (holds_write_apart htail (.inl (by omega))) (.inl (le_refl _))
  -- a path with a query behind it is not touched any more
  have hfront : ∀ q ∈ r.query, stringAt r.text.length (write (write before a (r.last.map Tok.value)) (a + (textOf r.last).length) [0])
      r.method.head.length = some (said (r.path.map Tok.value)) := by
    intro q hq
    obtain ⟨-, hle, hvals⟩ := hpart q hq
    have hvlen : (r.path.map Tok.value ++ [0]).length = r.path.length + 1 := by simp
    refine stringAt_of (holds_write_apart (holds_write_apart hvals (.inr (by omega))) (.inr (by omega))) ?_
    rw [length_map]
    omega
  have htarget : ∃ u, stringAt r.text.length (write (write before a (r.last.map Tok.value)) (a + (textOf r.last).length) [0])
      r.method.head.length = some u ∧ (r.query = none → u = said (r.path.map Tok.value ++ stale r.path)) ∧
        ∀ q ∈ r.query, u = said (r.path.map Tok.value) := by
    cases hq : r.query with
    | none =>
      have hlast : r.last = r.path := by
        unfold Request.last
        rw [hq]
        rfl
      rw [hbare hq, hlast] at hread
      rw [hbare hq, hlast]
      exact ⟨_, hread, fun _ => rfl, fun q hq' => absurd hq' (by simp)⟩
    | some q => exact ⟨_, hfront q hq, fun h => absurd h (by simp), fun _ _ => rfl⟩
  obtain ⟨u, hu, hunone, husome⟩ := htarget
  obtain ⟨line, head, body, hgetline, helim, hhead, hbody⟩ :=
    header_spec hrest h0 hz r.method (urlOf r.method.head.length u) arg req
  rw [← hline] at hgetline
  refine ⟨⟨r.method, urlOf r.method.head.length u, arg, head, body⟩, _, u, ?_,
    ⟨rfl, rfl, hu, hunone, fun q hq => ⟨husome q hq, a, (hpart q hq).1, ?_⟩, hhead, hbody⟩⟩
  · rw [hparse, parseTarget_found hscan hlastz hu hgetline]
    exact helim
  · have hlast : r.last = q := by
      unfold Request.last
      rw [hq]
      rfl
    rw [hlast] at hread ⊢
    exact hread

/-- **A request** is parsed right just when its last part and header are plain. -/
theorem parsed_iff (h : Str m r.text) (req : Req) :
    (∃ req' m', parseReq r.text.length m req = some (.none, req', m') ∧ Parsed r r.text.length m' req') ↔ r.Plain := by
  obtain ⟨req', m', u, hparse, hresult⟩ := parseReq_request h req
  have hlast := last_iff (Request.last_sub h.nonzero)
  have hurl := urlOf_iff (v := said (r.path.map Tok.value)) hresult.target
  rw [← hresult.url] at hurl
  unfold Request.last at hlast
  constructor
  · rintro ⟨req'', m'', hparse', hparsed⟩
    obtain ⟨rfl, rfl⟩ : req' = req'' ∧ m' = m'' := by
      have heq := some.inj (hparse.symm.trans hparse')
      exact ⟨congrArg (fun x => x.2.1) heq, congrArg (fun x => x.2.2) heq⟩
    refine ⟨hlast.mp ?_, hresult.body.mp hparsed.body⟩
    cases hq : r.query with
    | none =>
      exact (hresult.bare hq).symm.trans (hurl.mp hparsed.url)
    | some q =>
      obtain ⟨-, a, ha, hread⟩ := hresult.part q hq
      obtain ⟨a', ha', hread'⟩ := hparsed.arg q hq
      obtain rfl := some.inj (ha.symm.trans ha')
      exact some.inj (hread.symm.trans hread')
  · intro hplain
    have hsaid := hlast.mpr hplain.last
    refine ⟨req', m', hparse, hresult.method, hurl.mpr ?_, ?_, hresult.head, hresult.body.mpr hplain.headed⟩
    · cases hq : r.query with
      | none =>
        rw [hq] at hsaid
        exact (hresult.bare hq).trans hsaid
      | some q => exact (hresult.part q hq).1
    · intro q hq
      obtain ⟨-, a, ha, hread⟩ := hresult.part q hq
      rw [hq] at hsaid
      exact ⟨a, ha, hread.trans (congrArg some hsaid)⟩

/-- **`vsfip_httpd_parse_req`** stays inside just when the buffer is long enough and the scan ends inside;
and parses right just when last part and header are plain. -/
theorem parseReq_iff {xs : List UInt8} (h : Str m xs) (req : Req) :
    ((parseReq xs.length m req).isSome = true ↔ Bounded xs) ∧
      ∀ r : Request, xs = r.text →
        ((∃ req' m', parseReq xs.length m req = some (.none, req', m') ∧ Parsed r xs.length m' req') ↔ r.Plain) := by
  refine ⟨parseReq_isSome h req, ?_⟩
  rintro r rfl
  exact parsed_iff h req

/-- A buffer with this string. -/
def bufferOf (xs : List UInt8) : Mem := write (fun _ => 0) 0 (xs ++ [0])

theorem str_bufferOf (h : 0 ∉ xs) : Str (bufferOf xs) xs := by
  have hempty : Begins (fun _ => 0) [] := ⟨fun i hi => absurd hi (Nat.not_lt_zero i), not_mem_nil⟩
  exact hempty.write_str h

def blankReq : Req := ⟨.get, .homepage, none, none, none⟩

/-- `GET /%41?b H` with one header. -/
def escapedPath : Request :=
  ⟨.get, [.plain 47 (by decide), .esc ⟨4, false⟩ ⟨1, false⟩], some [.plain 98 (by decide)], ascii "H\r\nA: 1\r\n\r\nx"⟩

theorem parseReq_iff_escaped : ∃ req' m', parseReq escapedPath.text.length (bufferOf escapedPath.text) blankReq =
    some (.none, req', m') ∧ Parsed escapedPath escapedPath.text.length m' req' := by
  refine ((parseReq_iff (str_bufferOf (by decide)) blankReq).2 escapedPath rfl).mpr ⟨.inl (by decide), fun i hi => ?_⟩
  have hfirst : strstr crlf escapedPath.rest = some 1 := by decide
  obtain rfl := some.inj (hi.symm.trans hfirst)
  decide

/-- `GET /%41 H`: of the escape `41` is left behind what it decodes to. -/
def escapedLast : Request := ⟨.get, [.plain 47 (by decide), .esc ⟨4, false⟩ ⟨1, false⟩], none, ascii "H"⟩

/-- A request parsed wrong; and of `GET /`, without a white space, it goes on behind the zero. -/
theorem parseReq_stale : (Str (bufferOf escapedLast.text) escapedLast.text ∧
    ¬ ∃ req' m', parseReq escapedLast.text.length (bufferOf escapedLast.text) blankReq = some (.none, req', m') ∧
      Parsed escapedLast escapedLast.text.length m' req') ∧
    Str (bufferOf (ascii "GET /")) (ascii "GET /") ∧ parseReq (ascii "GET /").length (bufferOf (ascii "GET /")) blankReq = none := by
  have hlast : Str (bufferOf escapedLast.text) escapedLast.text := str_bufferOf (by decide)
  refine ⟨⟨hlast, fun h => ?_⟩, str_bufferOf (by decide), by decide⟩
  have hplain := ((parsed_iff hlast blankReq).mp h).last
  revert hplain
  decide

end Httpd
end Vsf
