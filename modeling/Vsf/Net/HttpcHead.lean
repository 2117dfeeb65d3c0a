/-
# The texts of the HTTP client

The request `vsfip_httpc_buildreq_get` writes, and the header `vsfip_httpc_prasehead` reads. The
host is copied without a zero behind it (`buildreqGet_iff`). The header stays inside its segment if
that has all of it (`prasehead_whole`), or ends behind one of its lines (`prasehead_lines`); a
segment that ends anywhere else is read past its end (`prasehead_short`, `prasehead_inside`).
-/
import Mathlib
import Vsf.Lib.CStr
import Vsf.Net.Httpc

namespace Vsf
namespace Httpc

open ByteMem Text CStr List Option

/-! ### The request -/

/-- `VSFIP_CFG_TCP_MSS`, the size of the buffer of the request. -/
def tcpMss : ℕ := 1500 - 20 - 20

/-- A URL, a C string. -/
structure Url where
  text : List UInt8
  nonzero : 0 ∉ text

namespace Url

variable (u : Url)

/-- `httpc->host`: the URL without `http://`. -/
def host : List UInt8 := if ascii "http://" <+: u.text then u.text.drop 7 else u.text

/-- `httpc->file`: from the first slash on. -/
def file : List UInt8 := if 47 ∈ u.host then u.host.dropWhile (· ≠ 47) else ascii "/"

/-- The host up to the first slash. -/
def hostName : List UInt8 := u.host.takeWhile (· ≠ 47)

end Url

/-- What stands in front of the host. -/
def requestHead (u : Url) : List UInt8 := ascii "GET " ++ u.file ++ ascii " HTTP/1.1\r\nHost: "

/-- What stands behind it. -/
def requestTail : List UInt8 := ascii "\r\nConnection: keep-alive\r\nUser-Agent: VSFIP\r\n\r\n"

/-- The host goes behind the string, without its zero if only a part of the URL. -/
def catHost (u : Url) (m : Mem) : Option Mem :=
  if 47 ∈ u.host then (strlen tcpMss m).bind fun n => memcpy tcpMss m n u.hostName else strcat tcpMss m u.host

/-- `vsfip_httpc_buildreq_get`, in a buffer of `m`; no request if a string function leaves it. -/
def buildreqGet (u : Url) (m : Mem) : Option (List UInt8) := do
  let m ← strcpy tcpMss m (ascii "GET ")
  let m ← strcat tcpMss m u.file
  let m ← strcat tcpMss m (ascii " HTTP/1.1\r\nHost: ")
  let m ← catHost u m
  let m ← strcat tcpMss m requestTail
  (strlen tcpMss m).map (text m)

/-- The GET request for the path of the URL, with its host. -/
def request (u : Url) : List UInt8 := requestHead u ++ u.hostName ++ requestTail

/-- The request and its zero fit into the buffer. -/
def Url.Fits (u : Url) : Prop := (request u).length < tcpMss

variable {u : Url} {m : Mem}

theorem host_nonzero (u : Url) : 0 ∉ u.host := fun hm => by
  unfold Url.host at hm
  split_ifs at hm
  · exact u.nonzero (mem_of_mem_drop hm)
  · exact u.nonzero hm

theorem file_nonzero (u : Url) : 0 ∉ u.file := fun hm => by
  unfold Url.file at hm
  split_ifs at hm
  · exact host_nonzero u ((dropWhile_suffix _).subset hm)
  · revert hm
    decide

theorem hostName_nonzero (u : Url) : 0 ∉ u.hostName := fun hm =>
  host_nonzero u ((List.takeWhile_prefix _).subset hm)

theorem hostName_of_not_mem (h : 47 ∉ u.host) : u.hostName = u.host :=
  takeWhile_eq_self_iff.mpr fun x hx => by simpa using fun he : x = 47 => h (he ▸ hx)

theorem requestHead_str (hfit : u.Fits) (m : Mem) : ∃ m1 m2 m3, strcpy tcpMss m (ascii "GET ") = some m1 ∧
    strcat tcpMss m1 u.file = some m2 ∧ strcat tcpMss m2 (ascii " HTTP/1.1\r\nHost: ") = some m3 ∧
    Str m3 (requestHead u) ∧ ∀ i, (requestHead u).length < i → m3 i = m i := by
  have hlen : (requestHead u).length + u.hostName.length + requestTail.length < tcpMss := by
    have h := hfit
    unfold Url.Fits request at h
    rw [length_append, length_append] at h
    exact h
  have hhead : (ascii "GET ").length + u.file.length + (ascii " HTTP/1.1\r\nHost: ").length = (requestHead u).length := by
    unfold requestHead
    rw [length_append, length_append]
  obtain ⟨m1, h1, hs1, hr1⟩ := strcpy_str m (s := ascii "GET ") (by decide) (show _ < tcpMss by omega)
  obtain ⟨m2, h2, hs2, hr2⟩ := strcat_str hs1 (file_nonzero u) (show _ < tcpMss by omega)
  rw [← length_append] at hhead
  obtain ⟨m3, h3, hs3, hr3⟩ := strcat_str hs2 (s := ascii " HTTP/1.1\r\nHost: ") (by decide) (show _ < tcpMss by omega)
  refine ⟨m1, m2, m3, h1, h2, h3, hs3, fun i hi => ?_⟩
  rw [length_append] at hhead
  rw [hr3 i (by rw [length_append]; omega), hr2 i (by omega), hr1 i (by omega)]

theorem requestTail_str (hfit : u.Fits) (h : Str m (requestHead u ++ u.hostName)) :
    (strcat tcpMss m requestTail).bind (fun m => (strlen tcpMss m).map (text m)) = some (request u) := by
  have hlen : (requestHead u ++ u.hostName).length + requestTail.length < tcpMss := by
    have h := hfit
    unfold Url.Fits request at h
    rw [length_append] at h
    exact h
  obtain ⟨m', h1, hs, -⟩ := strcat_str h (s := requestTail) (by decide) hlen
  rw [h1, bind_some, strlen_str hs (by rw [length_append]; exact hlen), map_some, hs.toBegins.text]
  rfl

/-- **When the request is right.** -/
theorem buildreqGet_iff (hfit : u.Fits) (m : Mem) : buildreqGet u m = some (request u) ↔
    47 ∉ u.host ∨ u.hostName = [] ∨ m ((requestHead u).length + u.hostName.length) = 0 := by
  obtain ⟨m1, m2, m3, h1, h2, h3, hs, hrest⟩ := requestHead_str hfit m
  have hlen : (requestHead u).length + u.hostName.length + requestTail.length < tcpMss := by
    have h := hfit
    unfold Url.Fits request at h
    rw [length_append, length_append] at h
    exact h
  have hrun : buildreqGet u m =
      (catHost u m3).bind fun m => (strcat tcpMss m requestTail).bind fun m => (strlen tcpMss m).map (text m) := by
    unfold buildreqGet
    rw [h1]
    show ((strcat tcpMss m1 u.file).bind _) = _
    rw [h2]
    show ((strcat tcpMss m2 _).bind _) = _
    rw [h3]
    rfl
  rw [hrun, catHost]
  by_cases hslash : 47 ∈ u.host
  · obtain ⟨m4, h4, hb, hkeep⟩ := memcpy_bytes hs.toBegins (hostName_nonzero u) (show _ ≤ tcpMss by omega)
    rw [if_pos hslash, strlen_str hs (by omega), bind_some, h4, bind_some]
    have hlast : m4 (requestHead u ++ u.hostName).length = m3 ((requestHead u).length + u.hostName.length) := by
      rw [length_append]
      exact hkeep _ (le_refl _)
    have hzero : m4 (requestHead u ++ u.hostName).length = 0 ↔
        47 ∉ u.host ∨ u.hostName = [] ∨ m ((requestHead u).length + u.hostName.length) = 0 := by
      rw [hlast]
      by_cases hempty : u.hostName = []
      · rw [hempty, length_nil, add_zero]
        exact ⟨fun _ => .inr (.inl rfl), fun _ => hs.zero⟩
      · have hpos := length_pos_iff.mpr hempty
        rw [hrest _ (by omega)]
        simp [hslash, hempty]
    rw [← hzero]
    constructor
    · intro heq
      by_contra hne
      -- one byte more, so the rest comes too late
      have hmore : Begins m4 ((requestHead u ++ u.hostName) ++ [m4 (requestHead u ++ u.hostName).length]) := by
        refine ⟨fun i hi => ?_, fun hm => ?_⟩
        · rw [length_append, length_singleton] at hi
          rcases Nat.lt_succ_iff_lt_or_eq.mp hi with hlt | rfl
          · rw [hb.bytes i hlt, getElem_append_left hlt]
          · simp
        · rcases mem_append.mp hm with hm | hm
          · exact hb.nonzero hm
          · exact hne (mem_singleton.mp hm).symm
      cases h5 : strcat tcpMss m4 requestTail with
      | none => rw [h5] at heq; cases heq
      | some m5 =>
        rw [h5, bind_some] at heq
        obtain ⟨k, hk, htext⟩ := map_eq_some_iff.mp heq
        have hlong := strcat_length hmore h5 hk (by decide)
        have hk' := congrArg List.length htext
        simp only [text, length_map, length_range, request, length_append, length_singleton] at hk' hlong
        omega
    · exact fun h0 => requestTail_str hfit ⟨hb, h0⟩
  · have hname := hostName_of_not_mem hslash
    obtain ⟨m4, h4, hs4, -⟩ := strcat_str hs (hostName_nonzero u) (show _ < tcpMss by omega)
    rw [if_neg hslash, ← hname, h4, bind_some, requestTail_str hfit hs4, hname]
    exact ⟨fun _ => .inl hslash, fun _ => rfl⟩

/-! ### The header -/

/-- Behind `Content-`: the length so far, and where the line's end is looked for. -/
def contentLine (len : UInt32) (cur : List UInt8) : Option (UInt32 × List UInt8) :=
  (strncmp (ascii "Type: ") cur).bind fun isType =>
    if isType then some (len, cur.drop 6)
    else
      (strncmp (ascii "Length: ") cur).bind fun isLength =>
        if isLength then (atoi (cur.drop 8)).map fun n => (UInt32.ofNat (n % 2 ^ 32).toNat, cur.drop 8)
        else some (len, cur)

/-- `cur[0] == '\r' && cur[1] == '\n'`, for a text that is not empty. -/
def isBlank : List UInt8 → Option Bool
  | [13] => none
  | 13 :: 10 :: _ => some true
  | _ => some false

/-- The lines of `vsfip_httpc_prasehead`: the result, `resp_length`, and what is left; none if it reads
behind the segment. -/
def headLoop : ℕ → UInt32 → List UInt8 → Option (Int × UInt32 × List UInt8)
  | 0, _, _ => none
  | f + 1, len, cur =>
    if cur = [] then some (1, len, [])
    else
      (strncmp (ascii "Content-") cur).bind fun isContent =>
        if isContent then
          (contentLine len (cur.drop 8)).bind fun r => (strchrNext r.2).bind (headLoop f r.1)
        else
          (isBlank cur).bind fun blank =>
            if blank then some (0, len, cur.drop 2) else (strchrNext cur).bind (headLoop f len)

/-- `vsfip_httpc_prasehead`. -/
def prasehead (len : UInt32) (seg : List UInt8) : Option Head :=
  (strncmp (ascii "HTTP/1.1 ") seg).bind fun ok =>
    if ok then
      (atoi (seg.drop 9)).bind fun code =>
        if code % 256 = 200 then
          (strchrNext (seg.drop 9)).bind fun cur =>
            (headLoop (cur.length + 1) len cur).map fun r => ⟨r.1, r.2.1, seg.length - r.2.2.length⟩
        else some ⟨-6, len, 0⟩
    else some ⟨-6, len, 0⟩

/-- A byte that can stand in a line. -/
def LineByte (b : UInt8) : Prop := b ≠ 0 ∧ b ≠ 10 ∧ b ≠ 13

/-- A header line: a name without a slash or a colon, and a value. -/
structure Field where
  name : List UInt8
  value : List UInt8
  name_ne : name ≠ []
  name_ok : ∀ b ∈ name, LineByte b ∧ b ≠ 47 ∧ b ≠ 58
  value_ok : ∀ b ∈ value, LineByte b

namespace Field

variable (F : Field)

/-- The line without its end. -/
def line : List UInt8 := F.name ++ 58 :: F.value

theorem line_ok {b : UInt8} (hb : b ∈ F.line) : LineByte b := by
  rcases mem_append.mp hb with hb | hb
  · exact (F.name_ok b hb).1
  · rcases mem_cons.mp hb with rfl | hb
    · exact ⟨by decide, by decide, by decide⟩
    · exact F.value_ok b hb

theorem line_ne : F.line ≠ [] := fun h => F.name_ne (append_eq_nil_iff.mp h).1

end Field

theorem decimal_lineByte {n : ℕ} {b : UInt8} (hb : b ∈ decimal n) : LineByte b := by
  have hdig := decimal_digit hb
  refine ⟨?_, ?_, ?_⟩
  all_goals
    rintro rfl
    revert hdig
    decide

theorem length_value_ok (n : ℕ) : ∀ b ∈ (32 : UInt8) :: decimal n, LineByte b := by
  intro b hb
  rcases mem_cons.mp hb with rfl | hb
  · exact ⟨by decide, by decide, by decide⟩
  · exact decimal_lineByte hb

theorem length_name_ok : ∀ b ∈ ascii "Content-Length", LineByte b ∧ b ≠ 47 ∧ b ≠ 58 := by
  unfold LineByte
  decide +kernel

theorem length_name_ne : ascii "Content-Length" ≠ [] := by decide

/-- `Content-Length: n`. -/
def lengthField (n : ℕ) : Field := ⟨ascii "Content-Length", 32 :: decimal n, length_name_ne, length_name_ok, length_value_ok n⟩

theorem lengthField_line (n : ℕ) : (lengthField n).line = ascii "Content-Length: " ++ decimal n := by
  have h : ascii "Content-Length: " = ascii "Content-Length" ++ [58, 32] := by decide
  rw [h, append_assoc]
  rfl

/-! ### One line -/

variable {f : ℕ} {len : UInt32} {xs rest p : List UInt8}

theorem drop_ok (hx : ∀ b ∈ xs, LineByte b) (k : ℕ) : ∀ b ∈ xs.drop k ++ [13], b ≠ 10 ∧ b ≠ 0 := by
  intro b hb
  rcases mem_append.mp hb with hb | hb
  · exact ⟨(hx b (mem_of_mem_drop hb)).2.1, (hx b (mem_of_mem_drop hb)).1⟩
  · obtain rfl := mem_singleton.mp hb
    exact ⟨by decide, by decide⟩

theorem strchrNext_drop (rest : List UInt8) (hx : ∀ b ∈ xs, LineByte b) {k : ℕ} (hk : k ≤ xs.length) :
    strchrNext ((xs ++ 13 :: 10 :: rest).drop k) = some rest := by
  have h := strchrNext_line rest (drop_ok hx k)
  rw [append_assoc] at h
  rw [drop_append_of_le_length hk]
  exact h

theorem headLoop_succ {cur : List UInt8} (hne : cur ≠ []) : headLoop (f + 1) len cur =
    (strncmp (ascii "Content-") cur).bind fun isContent =>
      if isContent then
        (contentLine len (cur.drop 8)).bind fun r => (strchrNext r.2).bind (headLoop f r.1)
      else
        (isBlank cur).bind fun blank =>
          if blank then some (0, len, cur.drop 2) else (strchrNext cur).bind (headLoop f len) :=
  if_neg hne

theorem headLoop_nil : headLoop (f + 1) len [] = some (1, len, []) := rfl

theorem headLoop_blank (f : ℕ) (len : UInt32) (rest : List UInt8) : headLoop (f + 1) len (13 :: 10 :: rest) = some (0, len, rest) := by
  have hcmp : strncmp (ascii "Content-") (13 :: 10 :: rest) = some false := rfl
  rw [headLoop_succ (cons_ne_nil _ _), hcmp]
  rfl

theorem headLoop_cut (hne : p ≠ []) (hp : 10 ∉ p) : headLoop (f + 1) len p = none := by
  have hdrop : ∀ k, strchrNext (p.drop k) = none := fun k => strchrNext_none fun hm => hp (mem_of_mem_drop hm)
  have hcontent : ∀ r, contentLine len (p.drop 8) = some r → strchrNext r.2 = none := by
    intro r hr
    unfold contentLine at hr
    obtain ⟨isType, -, hr⟩ := bind_eq_some_iff.mp hr
    split_ifs at hr
    · obtain rfl := some.inj hr
      rw [drop_drop]
      exact hdrop _
    · obtain ⟨isLength, -, hr⟩ := bind_eq_some_iff.mp hr
      split_ifs at hr
      · obtain ⟨n, -, rfl⟩ := map_eq_some_iff.mp hr
        rw [drop_drop]
        exact hdrop _
      · obtain rfl := some.inj hr
        exact hdrop _
  rw [headLoop_succ hne]
  cases strncmp (ascii "Content-") p with
  | none => rfl
  | some isContent =>
    rw [bind_some]
    split_ifs
    · cases hr : contentLine len (p.drop 8) with
      | none => rfl
      | some r =>
        rw [bind_some, hcontent r hr]
        rfl
    · cases hb : isBlank p with
      | none => rfl
      | some blank =>
        have hblank : blank = false := by
          unfold isBlank at hb
          split at hb
          · cases hb
          · simp at hp
          · exact (some.inj hb).symm
        rw [hblank, strchrNext_none hp]
        rfl

/-- A comparison with a text without carriage return, before a line's end. -/
theorem strncmp_line {lit : List UInt8} (hlit : 13 ∉ lit) (xs rest : List UInt8) :
    strncmp lit (xs ++ 13 :: 10 :: rest) = some (decide (lit <+: xs)) := by
  by_cases h : lit <+: xs
  · obtain ⟨ys, rfl⟩ := h
    rw [append_assoc, strncmp_self]
    simp
  · rw [strncmp_other _ hlit h]
    simp [h]

theorem ascii_content : (13 : UInt8) ∉ ascii "Content-" := by decide
theorem ascii_type : (13 : UInt8) ∉ ascii "Type: " := by decide
theorem ascii_length : (13 : UInt8) ∉ ascii "Length: " := by decide

theorem headLoop_line (hx : ∀ b ∈ xs, LineByte b) (hne : xs ≠ []) (hl : ¬ ascii "Content-Length: " <+: xs) :
    headLoop (f + 1) len (xs ++ 13 :: 10 :: rest) = headLoop f len rest := by
  have hnil : xs ++ 13 :: 10 :: rest ≠ [] := fun h => hne (append_eq_nil_iff.mp h).1
  rw [headLoop_succ hnil, strncmp_line ascii_content, bind_some]
  by_cases hc : ascii "Content-" <+: xs
  · rw [if_pos (decide_eq_true hc)]
    obtain ⟨ys, rfl⟩ := hc
    have hy : ∀ b ∈ ys, LineByte b := fun b hb => hx b (mem_append_right _ hb)
    have hdrop : (ascii "Content-" ++ ys ++ 13 :: 10 :: rest).drop 8 = ys ++ 13 :: 10 :: rest := by
      rw [append_assoc]
      rfl
    have hlen : ¬ ascii "Length: " <+: ys := fun ⟨zs, hz⟩ => hl ⟨zs, by rw [← hz, ← append_assoc]; rfl⟩
    rw [hdrop, contentLine, strncmp_line ascii_type, bind_some]
    by_cases ht : ascii "Type: " <+: ys
    · rw [if_pos (decide_eq_true ht), bind_some]
      rw [strchrNext_drop rest hy (k := 6) ht.length_le]
      rfl
    · rw [if_neg (by simpa using ht), strncmp_line ascii_length, bind_some, if_neg (by simpa using hlen),
        bind_some]
      have h0 := strchrNext_drop rest hy (Nat.zero_le _)
      rw [drop_zero] at h0
      rw [h0]
      rfl
  · rw [if_neg (by simpa using hc)]
    have h0 := strchrNext_drop rest hx (Nat.zero_le _)
    rw [drop_zero] at h0
    obtain ⟨x, xs, rfl⟩ := exists_cons_of_ne_nil hne
    have h13 : x ≠ 13 := (hx x mem_cons_self).2.2
    have hblank : isBlank (x :: xs ++ 13 :: 10 :: rest) = some false := by
      rw [cons_append]
      unfold isBlank
      split
      · next heq => exact absurd (head_eq_of_cons_eq heq) h13
      · next heq => exact absurd (head_eq_of_cons_eq heq) h13
      · rfl
    rw [hblank, h0]
    rfl

theorem headLoop_length (n : ℕ) : headLoop (f + 1) len ((lengthField n).line ++ 13 :: 10 :: rest) =
    if n < 2 ^ 31 then headLoop f (UInt32.ofNat n) rest else none := by
  have hsplit : (lengthField n).line = ascii "Content-" ++ (ascii "Length: " ++ decimal n) := by
    rw [lengthField_line, ← append_assoc]
    rfl
  have hnil : (lengthField n).line ++ 13 :: 10 :: rest ≠ [] := fun h =>
    (lengthField n).line_ne (append_eq_nil_iff.mp h).1
  have hd : ∀ b ∈ decimal n, LineByte b := fun _ hb => decimal_lineByte hb
  have h0 := strchrNext_drop rest hd (Nat.zero_le _)
  rw [drop_zero] at h0
  have hdrop : (ascii "Content-" ++ (ascii "Length: " ++ decimal n) ++ 13 :: 10 :: rest).drop 8 =
      (ascii "Length: " ++ decimal n) ++ 13 :: 10 :: rest := by
    rw [append_assoc]
    rfl
  have hdrop' : ((ascii "Length: " ++ decimal n) ++ 13 :: 10 :: rest).drop 8 = decimal n ++ 13 :: 10 :: rest := by
    rw [append_assoc]
    rfl
  have htype : ¬ ascii "Type: " <+: ascii "Length: " ++ decimal n := fun ⟨zs, hz⟩ =>
    absurd (head_eq_of_cons_eq hz) (by decide)
  rw [headLoop_succ hnil, hsplit, strncmp_line ascii_content, bind_some, if_pos (decide_eq_true (prefix_append _ _)),
    hdrop, contentLine, strncmp_line ascii_type, bind_some, if_neg (by simpa using htype), strncmp_line ascii_length,
    bind_some, if_pos (decide_eq_true (prefix_append _ _)), hdrop', atoi_decimal (by decide)]
  split_ifs with hlt
  · have hmod : ((n : Int) % 2 ^ 32).toNat = n := by omega
    rw [map_some, bind_some, h0, hmod]
    rfl
  · rfl

/-! ### A response -/

/-- The end of a line. -/
def crlf : List UInt8 := [13, 10]

/-- The lines of a header. -/
def textOf (fs : List Field) : List UInt8 := (fs.map fun F => F.line ++ crlf).flatten

/-- A response with status 200, one `Content-Length` and a body of that length. -/
structure Response where
  reason : List UInt8
  before : List Field
  after : List Field
  body : List UInt8
  reason_ok : ∀ b ∈ reason, LineByte b
  reason_space : ∀ b, reason.head? = some b → b = 32
  before_ne : ∀ F ∈ before, F.name ≠ ascii "Content-Length"
  after_ne : ∀ F ∈ after, F.name ≠ ascii "Content-Length"
  body_ne : body ≠ []

namespace Response

variable (R : Response)

def size : ℕ := R.body.length

def statusLine : List UInt8 := ascii "HTTP/1.1 200" ++ R.reason

def fields : List Field := R.before ++ lengthField R.size :: R.after

/-- The header with the blank line. -/
def header : List UInt8 := R.statusLine ++ crlf ++ textOf R.fields ++ crlf

def bytes : List UInt8 := R.header ++ R.body

end Response

theorem textOf_cons (F : Field) (fs : List Field) (rest : List UInt8) :
    textOf (F :: fs) ++ rest = F.line ++ 13 :: 10 :: (textOf fs ++ rest) := by
  simp [textOf, crlf]

theorem textOf_append (fs gs : List Field) : textOf (fs ++ gs) = textOf fs ++ textOf gs := by
  simp [textOf]

theorem length_le_textOf : ∀ fs : List Field, fs.length ≤ (textOf fs).length
  | [] => Nat.zero_le _
  | F :: fs => by
    have h := congrArg List.length (textOf_cons F fs [])
    have ih := length_le_textOf fs
    simp only [append_nil, length_append, length_cons] at h ⊢
    omega

theorem lengthField_name {F : Field} (h : ascii "Content-Length: " <+: F.line) : F.name = ascii "Content-Length" := by
  obtain ⟨ys, hy⟩ := h
  have hsplit : ascii "Content-Length: " ++ ys = ascii "Content-Length" ++ 58 :: (32 :: ys) := rfl
  rw [hsplit] at hy
  exact (append_cons_inj (by decide) (fun hm => (F.name_ok 58 hm).2.2 rfl) hy).1.symm

theorem headLoop_fields : ∀ {fs : List Field}, (∀ F ∈ fs, F.name ≠ ascii "Content-Length") →
    headLoop (f + fs.length) len (textOf fs ++ rest) = headLoop f len rest
  | [], _ => rfl
  | F :: fs, hne => by
    rw [textOf_cons, length_cons, ← add_assoc,
      headLoop_line (fun _ => F.line_ok) F.line_ne fun h => hne F mem_cons_self (lengthField_name h)]
    exact headLoop_fields fun G hG => hne G (mem_cons_of_mem _ hG)

variable {R : Response}

theorem headLoop_take (rest : List UInt8) (k : ℕ) : headLoop (f + (R.fields.take k).length) 0 (textOf (R.fields.take k) ++ rest) =
    if k ≤ R.before.length then headLoop f 0 rest
    else if R.size < 2 ^ 31 then headLoop f (UInt32.ofNat R.size) rest else none := by
  unfold Response.fields
  split_ifs with hk hn
  · rw [take_append_of_le_length hk]
    exact headLoop_fields fun F hF => R.before_ne F (mem_of_mem_take hF)
  all_goals
    obtain ⟨j, rfl⟩ := Nat.exists_eq_add_of_lt (not_le.mp hk)
    have htake : (R.before ++ lengthField R.size :: R.after).take (R.before.length + j + 1) =
        R.before ++ lengthField R.size :: R.after.take j := by
      rw [add_assoc, take_length_add_append, take_succ_cons]
    have hfuel : f + (R.before ++ lengthField R.size :: R.after.take j).length =
        (f + (R.after.take j).length + 1) + R.before.length := by
      rw [length_append, length_cons]
      omega
    rw [htake, hfuel, textOf_append, append_assoc, headLoop_fields R.before_ne, textOf_cons, headLoop_length]
  · rw [if_pos hn]
    exact headLoop_fields fun F hF => R.after_ne F (mem_of_mem_take hF)
  · rw [if_neg hn]

theorem prasehead_status (rest : List UInt8) : prasehead len (R.statusLine ++ crlf ++ rest) =
    (headLoop (rest.length + 1) len rest).map fun r =>
      ⟨r.1, r.2.1, (R.statusLine ++ crlf ++ rest).length - r.2.2.length⟩ := by
  have h200 : ascii "HTTP/1.1 200" = ascii "HTTP/1.1 " ++ decimal 200 := by decide
  have hshape : R.statusLine ++ crlf ++ rest = ascii "HTTP/1.1 " ++ (decimal 200 ++ (R.reason ++ 13 :: 10 :: rest)) := by
    rw [Response.statusLine, h200]
    simp [crlf]
  have hdrop : (R.statusLine ++ crlf ++ rest).drop 9 = decimal 200 ++ (R.reason ++ 13 :: 10 :: rest) := by
    rw [hshape]
    rfl
  have hatoi : atoi (decimal 200 ++ (R.reason ++ 13 :: 10 :: rest)) = some 200 := by
    cases hr : R.reason with
    | nil => exact atoi_decimal (by decide) _ 200
    | cons b bs =>
      have hb := R.reason_space b (by rw [hr]; rfl)
      rw [cons_append]
      exact atoi_decimal (by rw [hb]; decide) _ 200
  have hline : ∀ b ∈ decimal 200 ++ R.reason, LineByte b := fun b hb =>
    (mem_append.mp hb).elim decimal_lineByte (R.reason_ok b)
  have hnext := strchrNext_drop rest hline (Nat.zero_le _)
  rw [drop_zero, append_assoc] at hnext
  unfold prasehead
  rw [hdrop, hatoi, hnext, hshape, strncmp_self]
  rfl

/-- **A segment with the whole header.** -/
theorem prasehead_whole (x : List UInt8) : prasehead 0 (R.header ++ x) =
    if R.size < 2 ^ 31 then some ⟨0, UInt32.ofNat R.size, R.header.length⟩ else none := by
  have hle := length_le_textOf R.fields
  obtain ⟨f, hf⟩ : ∃ f, (textOf R.fields ++ (crlf ++ x)).length + 1 = f + 1 + R.fields.length := by
    refine ⟨(textOf R.fields ++ (crlf ++ x)).length - R.fields.length, ?_⟩
    rw [length_append]
    omega
  have hbefore : ¬ R.fields.length ≤ R.before.length := by
    unfold Response.fields
    rw [length_append, length_cons]
    omega
  have htake := headLoop_take (R := R) (f := f + 1) (crlf ++ x) R.fields.length
  rw [take_length, ← hf, if_neg hbefore] at htake
  rw [Response.header, append_assoc, append_assoc (R.statusLine ++ crlf), prasehead_status, htake]
  split_ifs
  · rw [show crlf ++ x = 13 :: 10 :: x from rfl, headLoop_blank, map_some]
    refine congrArg (fun k => some (⟨0, UInt32.ofNat R.size, k⟩ : Head)) ?_
    simp only [length_append, length_cons, crlf, length_nil]
    omega
  · rfl

theorem statusLine_split (rest : List UInt8) :
    R.statusLine ++ rest = ascii "HTTP/1.1 " ++ (decimal 200 ++ (R.reason ++ rest)) := by
  have h200 : ascii "HTTP/1.1 200" = ascii "HTTP/1.1 " ++ decimal 200 := by decide
  rw [Response.statusLine, h200, append_assoc, append_assoc]

theorem atoi_reason {e : List UInt8} (he : e <+: R.reason ++ [13]) :
    atoi (decimal 200 ++ e) = none ∨ atoi (decimal 200 ++ e) = some 200 := by
  have hdig : ∀ x ∈ decimal 200, isDigit x = true := fun x hx => isDigit_decimal hx
  cases e with
  | nil =>
    rw [append_nil]
    exact .inl (atoi_none hdig)
  | cons b bs =>
    refine .inr (atoi_decimal ?_ bs 200)
    cases hr : R.reason with
    | nil =>
      rw [hr, nil_append, cons_prefix_cons] at he
      rw [he.1]
      rfl
    | cons c cs =>
      rw [hr, cons_append, cons_prefix_cons] at he
      rw [he.1, R.reason_space c (by rw [hr]; rfl)]
      rfl

theorem prasehead_short {d : List UInt8} (hd : d <+: R.statusLine ++ [13]) (hline : 10 ∉ d) : prasehead len d = none := by
  unfold prasehead
  rw [statusLine_split] at hd
  rcases prefix_or_prefix_of_prefix hd (prefix_append _ _) with hshort | ⟨e, rfl⟩
  · rcases lt_or_ge d.length (ascii "HTTP/1.1 ").length with hlt | hge
    · rw [strncmp_short hshort hlt]
      rfl
    · rw [hshort.eq_of_length_le hge]
      rfl
  · have hdrop : (ascii "HTTP/1.1 " ++ e).drop 9 = e := rfl
    have he : 10 ∉ e := fun hm => hline (mem_append_right _ hm)
    have hcode : atoi e = none ∨ atoi e = some 200 := by
      rcases prefix_or_prefix_of_prefix ((prefix_append_right_inj _).mp hd) (prefix_append _ _) with hcut | ⟨e, rfl⟩
      · exact .inl (atoi_none fun x hx => isDigit_decimal (hcut.subset hx))
      · exact atoi_reason ((prefix_append_right_inj _).mp ((prefix_append_right_inj _).mp hd))
    rw [strncmp_self, bind_some, if_pos rfl, hdrop, strchrNext_none he]
    rcases hcode with hcode | hcode
    · rw [hcode]
      rfl
    · rw [hcode]
      rfl

theorem prasehead_lines (k : ℕ) : prasehead 0 (R.statusLine ++ crlf ++ textOf (R.fields.take k)) =
    if k ≤ R.before.length then some ⟨1, 0, (R.statusLine ++ crlf ++ textOf (R.fields.take k)).length⟩
    else if R.size < 2 ^ 31 then
      some ⟨1, UInt32.ofNat R.size, (R.statusLine ++ crlf ++ textOf (R.fields.take k)).length⟩
    else none := by
  have hle := length_le_textOf (R.fields.take k)
  obtain ⟨f, hf⟩ : ∃ f, (textOf (R.fields.take k)).length + 1 = f + 1 + (R.fields.take k).length :=
    ⟨(textOf (R.fields.take k)).length - (R.fields.take k).length, by omega⟩
  have htake := headLoop_take (R := R) (f := f + 1) [] k
  rw [append_nil, headLoop_nil, headLoop_nil] at htake
  rw [prasehead_status, hf, htake]
  split_ifs <;> rfl

theorem prasehead_inside (k : ℕ) {p : List UInt8} (hne : p ≠ []) (hp : 10 ∉ p) :
    prasehead 0 (R.statusLine ++ crlf ++ (textOf (R.fields.take k) ++ p)) = none := by
  have hle := length_le_textOf (R.fields.take k)
  obtain ⟨f, hf⟩ : ∃ f, (textOf (R.fields.take k) ++ p).length + 1 = f + 1 + (R.fields.take k).length := by
    refine ⟨(textOf (R.fields.take k) ++ p).length - (R.fields.take k).length, ?_⟩
    rw [length_append]
    omega
  have htake := headLoop_take (R := R) (f := f + 1) p k
  rw [headLoop_cut hne hp, headLoop_cut hne hp, ite_self, ite_self] at htake
  rw [prasehead_status, hf, htake]
  rfl

/-- Where a segment can end in front of the end of the header. -/
theorem header_cut {d : List UInt8} (hd : d <+: R.header) (hlt : d.length < R.header.length) :
    (d <+: R.statusLine ++ [13] ∧ 10 ∉ d) ∨
      ∃ k p, k ≤ R.fields.length ∧ d = R.statusLine ++ crlf ++ (textOf (R.fields.take k) ++ p) ∧ 10 ∉ p := by
  have hheader : R.header = ((R.statusLine ++ crlf) :: (R.fields.map fun F => F.line ++ crlf) ++ [crlf]).flatten := by
    simp [Response.header, textOf]
  have hstatus : 10 ∉ R.statusLine ++ [13] := by
    have h200 : (10 : UInt8) ∉ ascii "HTTP/1.1 200" := by decide
    unfold Response.statusLine
    rw [append_assoc, mem_append, mem_append, mem_singleton]
    rintro (hm | hm | hm)
    · exact h200 hm
    · exact (R.reason_ok 10 hm).2.1 rfl
    · exact absurd hm (by decide)
  have hlines : ∀ l ∈ (R.statusLine ++ crlf) :: (R.fields.map fun F => F.line ++ crlf) ++ [crlf],
      ∃ xs, l = xs ++ [10] ∧ 10 ∉ xs := by
    intro l hl
    rw [cons_append, mem_cons, mem_append, mem_singleton] at hl
    rcases hl with rfl | hl | rfl
    · exact ⟨R.statusLine ++ [13], by simp [crlf], hstatus⟩
    · obtain ⟨F, -, rfl⟩ := List.mem_map.mp hl
      refine ⟨F.line ++ [13], by simp [crlf], fun hm => ?_⟩
      rcases mem_append.mp hm with hm | hm
      · exact (F.line_ok hm).2.1 rfl
      · exact absurd (mem_singleton.mp hm) (by decide)
    · exact ⟨[13], rfl, by decide⟩
  have hd' := hd
  rw [hheader] at hd'
  obtain ⟨k, hk, p, hdp, hp⟩ := lines_cut hlines hd'
  cases k with
  | zero =>
    obtain rfl : d = p := hdp
    refine .inl ⟨?_, hp⟩
    have hwhole : d <+: (R.statusLine ++ [13]) ++ (10 :: (textOf R.fields ++ crlf)) := by
      rw [show (R.statusLine ++ [13]) ++ (10 :: (textOf R.fields ++ crlf)) = R.header by simp [Response.header, crlf]]
      exact hd
    rcases prefix_or_prefix_of_prefix hwhole (prefix_append _ _) with h | ⟨e, rfl⟩
    · exact h
    · cases e with
      | nil => simp
      | cons b bs =>
        have hb := (cons_prefix_cons.mp ((prefix_append_right_inj _).mp hwhole)).1
        exact absurd (mem_append_right _ (hb ▸ mem_cons_self)) hp
  | succ k =>
    rcases lt_or_ge R.fields.length k with hlong | hkf
    · -- all lines are there
      rw [take_of_length_le (by simp; omega), ← hheader] at hdp
      rw [hdp, length_append] at hlt
      omega
    · refine .inr ⟨k, p, hkf, ?_, hp⟩
      rw [hdp, cons_append, take_succ_cons, flatten_cons, take_append_of_le_length (by simpa using hkf),
        ← map_take, append_assoc]
      rfl

/-- A segment that begins with a line of the header is not taken for a response. -/
theorem prasehead_later {F : Field} {seg rest : List UInt8} (hseg : seg <+: F.line ++ rest) :
    prasehead len seg = none ∨ prasehead len seg = some ⟨-6, len, 0⟩ := by
  unfold prasehead
  cases hcmp : strncmp (ascii "HTTP/1.1 ") seg with
  | none => exact .inl rfl
  | some ok =>
    cases ok with
    | false => exact .inr rfl
    | true =>
      -- a name with a slash, or a colon in front of the slash
      exfalso
      have hlit : ascii "HTTP/1.1 " <+: F.name ++ ([58] ++ (F.value ++ rest)) := by
        rw [show F.name ++ ([58] ++ (F.value ++ rest)) = F.line ++ rest by simp [Field.line]]
        exact (strncmp_true hcmp).trans hseg
      rw [← append_assoc] at hlit
      have hslash : (47 : UInt8) ∈ ascii "HTTP/1.1 " := by decide
      have hcolon : (58 : UInt8) ∉ ascii "HTTP/1.1 " := by decide
      rcases prefix_or_prefix_of_prefix hlit (prefix_append _ _) with h | h
      · rcases mem_append.mp (h.subset hslash) with hm | hm
        · exact (F.name_ok 47 hm).2.1 rfl
        · exact absurd (mem_singleton.mp hm) (by decide)
      · exact hcolon (h.subset (mem_append_right _ mem_cons_self))

end Httpc
end Vsf
