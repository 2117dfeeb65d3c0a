/-
# The file response of httpd

`vsfip_httpd_service_thread` from `reply` on, for a request that names a file: a state is the
service structure and the entry it is resumed at. A file is answered with its header and bytes
exactly when it is not empty and its size is below `2 ^ 31` (`served_iff`): the loop that sends is
not entered for an empty file, and the size is printed with `%d`.
-/
import Mathlib
import Vsf.Lib.System
import Vsf.Lib.Text

namespace Vsf

open Text List Option

/-- A file of a `vsfile` tree. -/
structure HttpFile where
  name : List UInt8
  bytes : List UInt8
  fits : bytes.length < 2 ^ 64

/-- `file->size`. -/
def HttpFile.size (f : HttpFile) : ℕ := f.bytes.length

namespace Httpd

/-! ### The header -/

/-- `VSFIP_CFG_TCP_MSS`. -/
def tcpMss : ℕ := 1500 - 20 - 20

/-- `vsfip_httpd_mimetype`: the type and the extension. -/
def mimetypes : List (String × String) :=
  [("application/x-www-form-urlencoded", " "), ("multipart/form-data", " "), ("text/html", "htm"), ("text/html", "html"),
    ("image/jpeg", "jpg"), ("image/jpeg", "jpeg"), ("text/plain", "txt"), ("text/xml", "xml"),
    ("application/x-javascript", "js"), ("application/octet-stream", " ")]

/-- `vsfile_getfileext` in the name; `ext` is what follows the last dot so far. -/
def extLoop (ext : List UInt8) : List UInt8 → List UInt8
  | [] => ext
  | c :: cs => if c = 46 then extLoop cs cs else extLoop ext cs

/-- `vsfile_getfileext`. -/
def getfileext (name : List UInt8) : List UInt8 := extLoop name name

/-- `vsfip_httpd_gettypestr`. -/
def gettypestr (name : List UInt8) : List UInt8 :=
  match mimetypes.find? fun t => ascii t.2 = getfileext name with
  | some t => ascii t.1
  | none => ascii "application/octet-stream"

/-- `vsfip_httpd_header_resp`. -/
def headerResp (r : ℕ) : List UInt8 := ascii "HTTP/1.1 " ++ decimal r ++ ascii " OK\r\nServer: vsfip/1.0\r\n"

/-- `vsfip_httpd_header_str`, behind the text that is there. -/
def headerStr (text : List UInt8) (field : String) (value : List UInt8) : List UInt8 :=
  text ++ (ascii field ++ ascii ": " ++ value ++ ascii "\r\n")

/-- `vsfip_httpd_header_u32`. -/
def headerU32 (text : List UInt8) (field : String) (value : UInt32) : List UInt8 :=
  text ++ (ascii field ++ ascii ": " ++ printD value ++ ascii "\r\n")

/-- `vsfip_httpd_header_end`. -/
def headerEnd (text : List UInt8) : List UInt8 := text ++ ascii "\r\n"

/-- The header the thread writes for a file that was found. -/
def okHeader (f : HttpFile) : List UInt8 :=
  headerEnd (headerStr (headerU32 (headerResp 200) "Content-Length" (UInt32.ofNat f.size)) "Content-Type" (gettypestr f.name))

/-- The header of a 200 response: the length is the size of the file. -/
def header200 (f : HttpFile) : List UInt8 :=
  ascii "HTTP/1.1 200 OK\r\nServer: vsfip/1.0\r\nContent-Length: " ++ decimal f.size ++
    (ascii "\r\nContent-Type: " ++ gettypestr f.name ++ ascii "\r\n\r\n")

/-- What follows the length, without its carriage return. -/
def headerRest (f : HttpFile) : List UInt8 := ascii "\nContent-Type: " ++ gettypestr f.name ++ ascii "\r\n\r\n"

theorem okHeader_eq (f : HttpFile) (us : List UInt8) : okHeader f ++ us =
    ascii "HTTP/1.1 200 OK\r\nServer: vsfip/1.0\r\nContent-Length: " ++
      (printD (UInt32.ofNat f.size) ++ 13 :: (headerRest f ++ us)) := by
  have hpre : headerResp 200 ++ (ascii "Content-Length" ++ ascii ": ") =
      ascii "HTTP/1.1 200 OK\r\nServer: vsfip/1.0\r\nContent-Length: " := by decide
  rw [← hpre]
  simp only [okHeader, headerEnd, headerStr, headerU32, headerRest, append_assoc]
  rfl

theorem header200_eq (f : HttpFile) (us : List UInt8) : header200 f ++ us =
    ascii "HTTP/1.1 200 OK\r\nServer: vsfip/1.0\r\nContent-Length: " ++
      (decimal f.size ++ 13 :: (headerRest f ++ us)) := by
  simp only [header200, headerRest, append_assoc]
  rfl

/-- The header written is the file's as long as the size is printed right. -/
theorem okHeader_line {f : HttpFile} {us vs : List UInt8} :
    okHeader f ++ us = header200 f ++ vs ↔ f.size < 2 ^ 31 ∧ us = vs := by
  rw [okHeader_eq, header200_eq, append_cancel_left_eq, printD_line, append_cancel_left_eq]

theorem gettypestr_length (name : List UInt8) : (gettypestr name).length ≤ 33 := by
  have hall : ∀ t ∈ mimetypes, (ascii t.1).length ≤ 33 := by decide
  unfold gettypestr
  split
  · next t ht => exact hall t (mem_of_find?_eq_some ht)
  · decide

theorem okHeader_length (f : HttpFile) : (okHeader f).length < tcpMss := by
  have hty := gettypestr_length f.name
  have hd := printD_length (UInt32.ofNat f.size)
  have hpre : (ascii "HTTP/1.1 200 OK\r\nServer: vsfip/1.0\r\nContent-Length: ").length = 52 := by decide
  have hmid : (ascii "\nContent-Type: ").length = 15 := by decide
  have hend : (ascii "\r\n\r\n").length = 4 := by decide
  have h := congrArg List.length (okHeader_eq f [])
  simp only [headerRest, append_nil, length_append, length_cons, hpre, hmid, hend] at h
  rw [h]
  unfold tcpMss
  omega

/-! ### The thread -/

/-- A buffer of the thread: which one it is, and its `app` bytes. -/
structure OutBuf where
  id : ℕ
  data : List UInt8

/-- Where the thread is resumed: at one of five calls, or not any more. -/
inductive Pc
  | getfile
  | read
  | send
  | close
  | tcpClose
  | done
deriving DecidableEq

/-- `struct vsfip_httpd_service_t` in a response: `fresh` is the next buffer's number, `handed` went to
`vsfip_tcp_send`, `released` back. -/
structure Service where
  targetfile : HttpFile
  inbuf : Option ℕ
  outbuf : Option OutBuf
  fileoffset : UInt32
  pc : Pc
  fresh : ℕ
  handed : List OutBuf
  released : List ℕ

/-- What a call returns. -/
inductive Ret
  | notReady
  | ok
  | fail
deriving DecidableEq

/-- What the pending call returns, the bytes read, and if there is a next buffer. -/
structure Reply where
  ret : Ret
  rsize : ℕ
  mem : Bool

/-- The bytes of `vsfip_http404`, with the zero `sizeof` counts. -/
def http404Bytes : List UInt8 := ascii "HTTP/1.0 404 Not Found\r\n\r\nNot Found" ++ [0]

theorem http404_fits : http404Bytes.length < 2 ^ 64 := by decide

/-- `vsfip_http404`. -/
def http404 : HttpFile := ⟨ascii "404", http404Bytes, http404_fits⟩

/-- `vsfile_memfs_read`: the bytes that were read. -/
def memfsRead (f : HttpFile) (offset size : ℕ) : List UInt8 :=
  if offset ≥ f.size then [] else (f.bytes.drop offset).take (min size (f.size - offset))

namespace Service

variable (s : Service)

/-- `VSFIP_TCPBUF_GET`, with `data` written into it. -/
def get (data : List UInt8) : Service := { s with outbuf := some ⟨s.fresh, data⟩, fresh := s.fresh + 1 }

/-- `exit`: both buffers are released. -/
def exit : Service :=
  { s with
    released := s.released ++ (s.outbuf.toList.map OutBuf.id ++ s.inbuf.toList)
    outbuf := none
    inbuf := none
    pc := .tcpClose }

/-- The head of the loop. -/
def loop (mem : Bool) : Service :=
  if s.fileoffset.toNat < s.targetfile.size then
    match s.outbuf with
    | some _ => { s with pc := .read }
    | none => if mem then { s.get [] with pc := .read } else s.exit
  else { s with pc := .close }

/-- `vsfip_httpd_service_thread`, from the return of a call to the next call. -/
def step (r : Reply) : Service :=
  match r.ret with
  | .notReady => s
  | ret =>
    match s.pc, s.outbuf with
    | .getfile, _ =>
      if ret = .ok then
        if r.mem then { s.get (okHeader s.targetfile) with fileoffset := 0 }.loop r.mem else s.exit
      else { s with targetfile := http404, fileoffset := 0 }.loop r.mem
    | .read, some b =>
      if ret = .ok then
        let data := (s.targetfile.bytes.drop s.fileoffset.toNat).take r.rsize
        { s with
          outbuf := some { b with data := b.data ++ data }
          fileoffset := s.fileoffset + UInt32.ofNat r.rsize
          pc := .send }
      else s.exit
    | .send, some b =>
      let s := { s with handed := s.handed ++ [b], outbuf := none }
      if ret = .ok then s.loop r.mem else s.exit
    | .close, _ => s.exit
    | .tcpClose, _ => { s with pc := .done }
    | _, _ => s

/-- The bytes given to `vsfip_tcp_send`. -/
def payload : List UInt8 := (s.handed.map OutBuf.data).flatten

/-- The thread is not at its end; `vsfile_read` reads something, within the room and the file. -/
structure Legal (r : Reply) : Prop where
  pc : s.pc ≠ .done
  read : s.pc = .read → r.ret = .ok → ∀ b, s.outbuf = some b →
    0 < r.rsize ∧ b.data.length + r.rsize ≤ tcpMss ∧ s.fileoffset.toNat + r.rsize ≤ s.targetfile.size

/-- Every buffer is handed over, released or held, once; none is held in the end. -/
def Owned : Prop :=
  (s.handed.map OutBuf.id ++ s.released ++ (s.outbuf.toList.map OutBuf.id ++ s.inbuf.toList)).Perm (List.range s.fresh) ∧
    (s.pc = .tcpClose ∨ s.pc = .done → s.outbuf = none ∧ s.inbuf = none)

end Service

/-- The thread at `reply` for the file `f`; the request is in the buffer 0. -/
def begin (f : HttpFile) : Service where
  targetfile := f
  inbuf := some 0
  outbuf := none
  fileoffset := 0
  pc := .getfile
  fresh := 1
  handed := []
  released := []

/-- All responses. -/
def reply (f : HttpFile) : System Service Reply where
  start s := s = begin f
  step s r s' := s.Legal r ∧ s' = s.step r

/-- The call succeeds, or is still suspended. -/
def NoFail (r : Reply) : Prop := r.ret ≠ .fail ∧ r.mem = true

/-- A call that came back. -/
def completed (r : Reply) : Bool := r.ret ≠ .notReady

/-- The responses in which nothing fails. -/
def served (f : HttpFile) : System Service Reply := (reply f).restrict fun _ r => NoFail r

/-- **A file is served**: if nothing fails, the header and the bytes are sent in buffers of at most
`VSFIP_CFG_TCP_MSS`, none lost or given away twice. -/
structure Served (f : HttpFile) : Prop where
  whole : ∀ s, (served f).Reach s → s.pc = .done → s.payload = header200 f ++ f.bytes
  sizes : ∀ s, (served f).Reach s → ∀ b ∈ s.handed, b.data.length ≤ tcpMss
  owned : ∀ s, (served f).Reach s → s.Owned
  ends : ∃ B, ∀ rs s, (served f).Run (begin f) rs s →
    rs.countP completed ≤ B ∧ (s.pc = .done ∨ ∃ r s', completed r = true ∧ (served f).step s r s')

/-! ### The buffers -/

variable {f : HttpFile} {s : Service} {n : ℕ}

theorem exit_owned (h : s.Owned) : s.exit.Owned := by
  refine ⟨?_, fun _ => ⟨rfl, rfl⟩⟩
  have hp := h.1
  rw [append_assoc] at hp
  simpa [Service.exit] using hp

theorem get_owned (h : s.Owned) (hn : s.outbuf = none) (hpc : s.pc ≠ .tcpClose ∧ s.pc ≠ .done) (data : List UInt8) :
    (s.get data).Owned := by
  refine ⟨?_, fun hp => absurd hp (not_or.mpr hpc)⟩
  have hp := h.1
  rw [hn, toList_none, map_nil, nil_append] at hp
  rw [Service.get, range_succ]
  exact perm_middle.trans ((hp.cons _).trans (perm_append_singleton _ _).symm)

theorem loop_cases (s : Service) (mem : Bool) :
    (s.fileoffset.toNat < s.targetfile.size ∧
      ((∃ b, s.outbuf = some b ∧ s.loop mem = { s with pc := .read }) ∨
        (s.outbuf = none ∧ mem = true ∧ s.loop mem = { s.get [] with pc := .read }) ∨
        (s.outbuf = none ∧ mem = false ∧ s.loop mem = s.exit))) ∨
      s.targetfile.size ≤ s.fileoffset.toNat ∧ s.loop mem = { s with pc := .close } := by
  unfold Service.loop
  by_cases hlt : s.fileoffset.toNat < s.targetfile.size
  · rw [if_pos hlt]
    refine .inl ⟨hlt, ?_⟩
    cases hb : s.outbuf with
    | some b => exact .inl ⟨b, rfl, rfl⟩
    | none =>
      cases mem with
      | true => exact .inr (.inl ⟨rfl, rfl, rfl⟩)
      | false => exact .inr (.inr ⟨rfl, rfl, rfl⟩)
  · rw [if_neg hlt]
    exact .inr ⟨not_lt.mp hlt, rfl⟩

theorem loop_owned (h : s.Owned) (hpc : s.pc ≠ .tcpClose ∧ s.pc ≠ .done) (mem : Bool) : (s.loop mem).Owned := by
  rcases loop_cases s mem with ⟨-, ⟨b, -, heq⟩ | ⟨hn, -, heq⟩ | ⟨-, -, heq⟩⟩ | ⟨-, heq⟩
  · rw [heq]
    exact ⟨h.1, nofun⟩
  · rw [heq]
    exact ⟨(get_owned h hn hpc []).1, nofun⟩
  · rw [heq]
    exact exit_owned h
  · rw [heq]
    exact ⟨h.1, nofun⟩

theorem hand_owned (h : s.Owned) {b : OutBuf} (hb : s.outbuf = some b) (hpc : s.pc ≠ .tcpClose ∧ s.pc ≠ .done) :
    ({ s with handed := s.handed ++ [b], outbuf := none } : Service).Owned := by
  refine ⟨?_, fun hp => absurd hp (not_or.mpr hpc)⟩
  have hp := h.1
  rw [hb] at hp
  refine List.Perm.trans (perm_iff_count.mpr fun k => ?_) hp
  simp only [map_append, map_singleton, toList_some, toList_none, map_nil, count_append,
    count_nil]
  omega

/-- What the return of a call does. -/
inductive Moved (s : Service) (r : Reply) : Service → Prop
  | stay : Moved s r s
  | quit (h : r.ret = .fail ∨ r.mem = false) : Moved s r s.exit
  | found (hpc : s.pc = .getfile) (h : r.mem = true) :
      Moved s r (Service.loop { s.get (okHeader s.targetfile) with fileoffset := 0 } r.mem)
  | missing (hpc : s.pc = .getfile) (h : r.ret = .fail) : Moved s r (Service.loop { s with targetfile := http404, fileoffset := 0 } r.mem)
  | read {b : OutBuf} (hpc : s.pc = .read) (hb : s.outbuf = some b) (h : r.ret = .ok) :
      Moved s r { s with
        outbuf := some { b with data := b.data ++ (s.targetfile.bytes.drop s.fileoffset.toNat).take r.rsize }
        fileoffset := s.fileoffset + UInt32.ofNat r.rsize
        pc := .send }
  | sent {b : OutBuf} (hpc : s.pc = .send) (hb : s.outbuf = some b) (h : r.ret = .ok) :
      Moved s r (Service.loop { s with handed := s.handed ++ [b], outbuf := none } r.mem)
  | lost {b : OutBuf} (hpc : s.pc = .send) (hb : s.outbuf = some b) (h : r.ret = .fail) :
      Moved s r (Service.exit { s with handed := s.handed ++ [b], outbuf := none })
  | close (hpc : s.pc = .close) : Moved s r s.exit
  | closed (hpc : s.pc = .tcpClose) : Moved s r { s with pc := .done }

theorem step_moved (s : Service) (r : Reply) : Moved s r (s.step r) := by
  unfold Service.step
  cases hret : r.ret with
  | notReady => exact .stay
  | ok =>
    dsimp only
    split
    · next _ hpc =>
      rw [if_pos rfl]
      split_ifs with hmem
      · exact .found hpc hmem
      · exact .quit (.inr (Bool.eq_false_of_not_eq_true hmem))
    · next b hpc hb => exact .read hpc hb hret
    · next b hpc hb => exact .sent hpc hb hret
    · next _ hpc => exact .close hpc
    · next _ hpc => exact .closed hpc
    · exact .stay
  | fail =>
    dsimp only
    split
    · next _ hpc => exact .missing hpc hret
    · exact .quit (.inl hret)
    · next b hpc hb => exact .lost hpc hb hret
    · next _ hpc => exact .close hpc
    · next _ hpc => exact .closed hpc
    · exact .stay

/-- **Every buffer is accounted for**, whatever the calls return. -/
theorem step_owned (h : s.Owned) (hfirst : s.pc = .getfile → s.outbuf = none) (r : Reply) : (s.step r).Owned := by
  have hopen : ∀ {pc : Pc}, s.pc = pc → pc ≠ .tcpClose → pc ≠ .done → s.pc ≠ .tcpClose ∧ s.pc ≠ .done :=
    fun hpc hc hd => ⟨hpc ▸ hc, hpc ▸ hd⟩
  have hmoved := step_moved s r
  generalize s.step r = s' at hmoved ⊢
  cases hmoved with
  | stay => exact h
  | quit _ => exact exit_owned h
  | found hpc _ =>
    have hne := hopen hpc (by decide) (by decide)
    have hget := get_owned h (hfirst hpc) hne (okHeader s.targetfile)
    exact loop_owned (s := { s.get (okHeader s.targetfile) with fileoffset := 0 }) ⟨hget.1, hget.2⟩ hne _
  | missing hpc _ =>
    exact loop_owned (s := { s with targetfile := http404, fileoffset := 0 }) h (hopen hpc (by decide) (by decide)) _
  | read hpc hb _ =>
    have hp := h.1
    rw [hb] at hp
    exact ⟨hp, fun hend => by rcases hend with hend | hend <;> cases hend⟩
  | sent hpc hb _ =>
    have hne := hopen hpc (by decide) (by decide)
    exact loop_owned (hand_owned h hb hne) hne _
  | lost hpc hb _ => exact exit_owned (hand_owned h hb (hopen hpc (by decide) (by decide)))
  | close _ => exact exit_owned h
  | closed hpc => exact ⟨h.1, fun _ => h.2 (.inl hpc)⟩

theorem loop_pc (s : Service) (mem : Bool) : (s.loop mem).pc ≠ .getfile := by
  rcases loop_cases s mem with ⟨-, ⟨b, -, heq⟩ | ⟨-, -, heq⟩ | ⟨-, -, heq⟩⟩ | ⟨-, heq⟩
  all_goals
    rw [heq]
    nofun

theorem step_pc (s : Service) (r : Reply) (hpc : (s.step r).pc = .getfile) : s.step r = s := by
  have hmoved := step_moved s r
  generalize s.step r = s' at hmoved hpc ⊢
  cases hmoved with
  | stay => rfl
  | found _ _ | missing _ _ | sent _ _ _ => exact absurd hpc (loop_pc _ _)
  | quit _ | read _ _ _ | lost _ _ _ | close _ | closed _ => cases hpc

theorem reach_owned (h : (reply f).Reach s) : s.Owned := by
  have hboth : s.Owned ∧ (s.pc = .getfile → s.outbuf = none) := by
    refine h.invariant (P := fun s => s.Owned ∧ (s.pc = .getfile → s.outbuf = none)) ?_ ?_
    · rintro s rfl
      exact ⟨⟨List.Perm.refl _, nofun⟩, fun _ => rfl⟩
    · rintro s r s' _ ⟨hown, hfirst⟩ ⟨-, rfl⟩
      refine ⟨step_owned hown hfirst r, fun hpc => ?_⟩
      have hsame := step_pc s r hpc
      rw [hsame] at hpc ⊢
      exact hfirst hpc
  exact hboth.1

/-! ### What is sent -/

/-- Handed over and `data` are the header and the bytes up to `fileoffset`, unless that wrapped. -/
structure Sent (f : HttpFile) (payload : List UInt8) (fileoffset : UInt32) (data : List UInt8) : Prop where
  header : okHeader f <+: payload ++ data
  bytes : f.size < 2 ^ 32 → payload ++ data = okHeader f ++ f.bytes.take fileoffset.toNat

/-- What holds at each entry of a response in which nothing fails. -/
def Place (f : HttpFile) (s : Service) : Prop :=
  match s.pc with
  | .getfile => s.outbuf = none ∧ s.handed = []
  | .read => ∃ b, s.outbuf = some b ∧ b.data.length < tcpMss ∧ s.fileoffset.toNat < f.size ∧ Sent f s.payload s.fileoffset b.data
  | .send => ∃ b, s.outbuf = some b ∧ b.data.length ≤ tcpMss ∧ 0 < f.size ∧ Sent f s.payload s.fileoffset b.data
  | .close => 0 < f.size → s.outbuf = none ∧ f.size ≤ s.fileoffset.toNat ∧ Sent f s.payload s.fileoffset []
  | .tcpClose | .done => 0 < f.size → f.size ≤ s.fileoffset.toNat ∧ Sent f s.payload s.fileoffset []

structure Inv (f : HttpFile) (s : Service) : Prop where
  file : s.targetfile = f
  sizes : ∀ b ∈ s.handed, b.data.length ≤ tcpMss
  place : Place f s

theorem first_inv (h : Inv f s) (hpc : s.pc = .getfile) :
    Inv f (({ s.get (okHeader s.targetfile) with fileoffset := 0 } : Service).loop true) := by
  have hplace := h.place
  unfold Place at hplace
  rw [hpc] at hplace
  have hpay : s.payload = [] := by
    unfold Service.payload
    rw [hplace.2]
    rfl
  have hsizes := h.sizes
  rw [h.file]
  rcases loop_cases ({ s.get (okHeader f) with fileoffset := 0 } : Service) true with
    ⟨hlt, ⟨b, hb, heq⟩ | ⟨hn, -, -⟩ | ⟨hn, -, -⟩⟩ | ⟨hle, heq⟩
  · rw [heq]
    refine ⟨h.file, hsizes, _, rfl, okHeader_length f, h.file ▸ hlt, ?_, fun _ => ?_⟩
    · show okHeader f <+: s.payload ++ okHeader f
      rw [hpay]
      exact prefix_refl _
    · show s.payload ++ okHeader f = okHeader f ++ f.bytes.take 0
      rw [hpay, take_zero, append_nil]
      rfl
  · cases hn
  · cases hn
  · rw [heq]
    refine ⟨h.file, hsizes, fun hpos => absurd hle (not_le.mpr ?_)⟩
    rw [← h.file] at hpos
    exact hpos

theorem tcpMss_pos : 0 < tcpMss := by decide

theorem loop_inv (hfile : s.targetfile = f) (hsizes : ∀ b ∈ s.handed, b.data.length ≤ tcpMss) (hn : s.outbuf = none)
    (hsent : Sent f s.payload s.fileoffset []) : Inv f (s.loop true) := by
  rcases loop_cases s true with ⟨hlt, ⟨b, hb, -⟩ | ⟨-, -, heq⟩ | ⟨-, hm, -⟩⟩ | ⟨hle, heq⟩
  · rw [hn] at hb
    cases hb
  · rw [heq]
    exact ⟨hfile, hsizes, _, rfl, tcpMss_pos, hfile ▸ hlt, hsent⟩
  · cases hm
  · rw [heq]
    exact ⟨hfile, hsizes, fun _ => ⟨hn, hfile ▸ hle, hsent⟩⟩

theorem read_sent {payload data : List UInt8} {fileoffset : UInt32} (h : Sent f payload fileoffset data)
    (hlegal : fileoffset.toNat + n ≤ f.size) :
    Sent f payload (fileoffset + UInt32.ofNat n) (data ++ (f.bytes.drop fileoffset.toNat).take n) := by
  refine ⟨h.header.trans ⟨_, append_assoc _ _ _⟩, fun hlt => ?_⟩
  have hoff : (fileoffset + UInt32.ofNat n).toNat = fileoffset.toNat + n := by
    have hn : (UInt32.ofNat n).toNat = n := UInt32.toNat_ofNat_of_lt' (show n < UInt32.size by unfold UInt32.size; omega)
    rw [UInt32.toNat_add, hn]
    exact Nat.mod_eq_of_lt (by omega)
  calc payload ++ (data ++ (f.bytes.drop fileoffset.toNat).take n)
      = (payload ++ data) ++ (f.bytes.drop fileoffset.toNat).take n := (append_assoc _ _ _).symm
    _ = okHeader f ++ (f.bytes.take fileoffset.toNat ++ (f.bytes.drop fileoffset.toNat).take n) := by
      rw [h.bytes hlt, append_assoc]
    _ = okHeader f ++ f.bytes.take (fileoffset + UInt32.ofNat n).toNat := by rw [hoff, take_add]

/-- **One return** of a call that does not fail. -/
theorem Inv.step (h : Inv f s) {r : Reply} (hlegal : s.Legal r) (hok : NoFail r) : Inv f (s.step r) := by
  have hplace := h.place
  unfold Place at hplace
  have hmoved := step_moved s r
  generalize s.step r = s' at hmoved ⊢
  cases hmoved with
  | stay => exact h
  | quit hfail =>
    rcases hfail with hfail | hfail
    · exact absurd hfail hok.1
    · exact absurd (hfail.symm.trans hok.2) (by decide)
  | missing _ hfail | lost _ _ hfail => exact absurd hfail hok.1
  | found hpc hmem =>
    rw [hmem]
    exact first_inv h hpc
  | @read b hpc hb hret =>
    rw [hpc] at hplace
    obtain ⟨b', hb', hroom, hlt, hsent⟩ := hplace
    obtain rfl : b' = b := some.inj (hb'.symm.trans hb)
    obtain ⟨-, hfit, hend⟩ := hlegal.read hpc hret b' hb
    rw [h.file] at hend ⊢
    refine ⟨rfl, h.sizes, _, rfl, ?_, Nat.lt_of_le_of_lt (Nat.zero_le _) hlt, read_sent hsent hend⟩
    have := length_take_le r.rsize (f.bytes.drop s.fileoffset.toNat)
    rw [length_append]
    omega
  | @sent b hpc hb _ =>
    rw [hpc] at hplace
    obtain ⟨b', hb', hroom, hpos, hsent⟩ := hplace
    obtain rfl : b' = b := some.inj (hb'.symm.trans hb)
    rw [hok.2]
    have hpay : Service.payload { s with handed := s.handed ++ [b'], outbuf := none } = s.payload ++ b'.data := by
      simp [Service.payload]
    refine loop_inv h.file (fun x hx => ?_) rfl ⟨?_, fun hlt => ?_⟩
    · rcases mem_append.mp hx with hx | hx
      · exact h.sizes x hx
      · obtain rfl := mem_singleton.mp hx
        exact hroom
    · rw [hpay, append_nil]
      exact hsent.header
    · rw [hpay, append_nil]
      exact hsent.bytes hlt
  | close hpc =>
    rw [hpc] at hplace
    exact ⟨h.file, h.sizes, fun hpos => (hplace hpos).2⟩
  | closed hpc =>
    rw [hpc] at hplace
    exact ⟨h.file, h.sizes, fun hpos => hplace hpos⟩

theorem reach_inv (h : (served f).Reach s) : Inv f s := by
  refine h.invariant (P := Inv f) ?_ fun s r s' _ hi hs => ?_
  · rintro s rfl
    exact ⟨rfl, by simp [begin], rfl, rfl⟩
  · obtain ⟨hok, hlegal, rfl⟩ := hs
    exact hi.step hlegal hok

/-! ### The end of a response -/

/-- The calls that are left, for a file whose size fits in `fileoffset`. -/
def work (f : HttpFile) (s : Service) : ℕ :=
  match s.pc with
  | .getfile => 2 * f.size + 3
  | .read => 2 * (f.size - s.fileoffset.toNat) + 2
  | .send => 2 * (f.size - s.fileoffset.toNat) + 3
  | .close => 2
  | .tcpClose => 1
  | .done => 0

theorem loop_work (f : HttpFile) (s : Service) : work f (s.loop true) ≤ 2 * (f.size - s.fileoffset.toNat) + 2 := by
  rcases loop_cases s true with ⟨-, ⟨b, -, heq⟩ | ⟨-, -, heq⟩ | ⟨-, hm, -⟩⟩ | ⟨-, heq⟩
  · rw [heq]
    exact le_refl _
  · rw [heq]
    exact le_refl _
  · cases hm
  · rw [heq]
    exact Nat.le_add_left _ _

theorem step_work (h : Inv f s) (hsize : f.size < 2 ^ 32) {r : Reply} (hlegal : s.Legal r) (hok : NoFail r) :
    work f (s.step r) + (if completed r then 1 else 0) ≤ work f s := by
  have hplace := h.place
  unfold Place at hplace
  unfold Service.step completed
  cases hret : r.ret with
  | notReady => exact le_refl _
  | fail => exact absurd hret hok.1
  | ok =>
    have hback : decide (Ret.ok ≠ Ret.notReady) = true := rfl
    rw [hback, if_pos rfl]
    dsimp only
    cases hp : s.pc with
    | getfile =>
      rw [if_pos rfl, if_pos hok.2, hok.2]
      have hloop := loop_work f { s.get (okHeader s.targetfile) with fileoffset := 0 }
      have hzero : (0 : UInt32).toNat = 0 := rfl
      have hwork : work f s = 2 * f.size + 3 := by
        unfold work
        rw [hp]
      rw [hzero] at hloop
      rw [hwork]
      exact Nat.succ_le_succ hloop
    | read =>
      rw [hp] at hplace
      obtain ⟨b, hb, hroom, hlt, hsent⟩ := hplace
      obtain ⟨hpos, hfit, hend⟩ := hlegal.read hp hret b hb
      rw [h.file] at hend
      have hn : (UInt32.ofNat r.rsize).toNat = r.rsize :=
        UInt32.toNat_ofNat_of_lt' (show r.rsize < UInt32.size by unfold UInt32.size; omega)
      have hoff : (s.fileoffset + UInt32.ofNat r.rsize).toNat = s.fileoffset.toNat + r.rsize := by
        rw [UInt32.toNat_add, hn]
        exact Nat.mod_eq_of_lt (by omega)
      rw [hb]
      simp only [work, hp, if_true, hoff]
      omega
    | send =>
      rw [hp] at hplace
      obtain ⟨b, hb, -⟩ := hplace
      have hloop := loop_work f { s with handed := s.handed ++ [b], outbuf := none }
      rw [hb]
      simp only [work, hp, if_true, hok.2]
      exact Nat.succ_le_succ hloop
    | close => simp only [work, hp, Service.exit]; omega
    | tcpClose => simp only [work, hp]; omega
    | done => exact absurd hp hlegal.pc

theorem run_work {rs : List Reply} {s' : Service} (h : (served f).Run s rs s') (hsize : f.size < 2 ^ 32)
    (hr : (served f).Reach s) : rs.countP completed + work f s' ≤ work f s := by
  induction h with
  | nil s => exact le_of_eq (zero_add _)
  | @cons s s1 s2 r rs hs _ ih =>
    have hrest := ih (hr.step hs)
    obtain ⟨hok, hlegal, rfl⟩ := hs
    have hstep := step_work (reach_inv hr) hsize hlegal hok
    rw [countP_cons]
    omega

theorem Inv.goes_on (h : Inv f s) (hpc : s.pc ≠ .done) : ∃ r s', completed r = true ∧ (served f).step s r s' := by
  refine ⟨⟨.ok, 1, true⟩, _, rfl, ⟨nofun, rfl⟩, ⟨hpc, fun hread _ b hb => ?_⟩, rfl⟩
  obtain ⟨rfl, -, hplace⟩ := h
  unfold Place at hplace
  rw [hread] at hplace
  obtain ⟨b', hb', hroom, hlt, -⟩ := hplace
  obtain rfl : b' = b := some.inj (hb'.symm.trans hb)
  exact ⟨one_pos, hroom, hlt⟩

theorem Inv.done (h : Inv f s) (hpc : s.pc = .done) (hpos : 0 < f.size) :
    okHeader f <+: s.payload ∧ (f.size < 2 ^ 32 → s.payload = okHeader f ++ f.bytes) := by
  have hplace := h.place
  unfold Place at hplace
  rw [hpc] at hplace
  obtain ⟨hle, hsent⟩ := hplace hpos
  have hheader := hsent.header
  have hbytes := hsent.bytes
  rw [append_nil] at hheader hbytes
  exact ⟨hheader, fun hlt => (hbytes hlt).trans (congrArg _ (take_of_length_le hle))⟩

theorem empty_payload (hsize : f.size = 0) : ∃ s, (served f).Reach s ∧ s.pc = .done ∧ s.payload = [] := by
  have hok : NoFail ⟨.ok, 0, true⟩ := ⟨nofun, rfl⟩
  have h1 : (served f).Reach ((begin f).step ⟨.ok, 0, true⟩) :=
    (System.Reach.start rfl).step ⟨hok, ⟨nofun, nofun⟩, rfl⟩
  have hclose : ((begin f).step ⟨.ok, 0, true⟩) =
      { (begin f).get (okHeader f) with fileoffset := 0, pc := .close } := by
    rcases loop_cases ({ (begin f).get (okHeader f) with fileoffset := 0 } : Service) true with ⟨hlt, -⟩ | ⟨-, heq⟩
    · exact absurd hlt (Nat.not_lt.mpr (hsize ▸ Nat.zero_le _))
    · exact heq
  rw [hclose] at h1
  have h2 := h1.step (i := ⟨.ok, 0, true⟩) ⟨hok, ⟨nofun, nofun⟩, rfl⟩
  have h3 := h2.step (i := ⟨.ok, 0, true⟩) ⟨hok, ⟨nofun, nofun⟩, rfl⟩
  exact ⟨_, h3, rfl, rfl⟩

/-- **A file is served exactly when it has a size from 1 to `2 ^ 31 - 1`**: an empty one gets no header, a
larger one a wrong length, and from `2 ^ 32` it does not end. -/
theorem served_iff (f : HttpFile) : Served f ↔ 0 < f.size ∧ f.size < 2 ^ 31 := by
  constructor
  · intro h
    have hpos : 0 < f.size := by
      refine pos_of_ne_zero fun hzero => ?_
      obtain ⟨s, hr, hpc, hpay⟩ := empty_payload hzero
      have hwhole := h.whole s hr hpc
      rw [hpay, header200_eq] at hwhole
      exact absurd (append_eq_nil_iff.mp hwhole.symm).1 (by decide)
    obtain ⟨B, hends⟩ := h.ends
    obtain ⟨rs, s, hrun, hpc⟩ := System.Run.exists_end hends
    have hr := hrun.reach (.start rfl)
    obtain ⟨rest, hrest⟩ := ((reach_inv hr).done hpc hpos).1
    exact ⟨hpos, (okHeader_line.mp (hrest.trans (h.whole s hr hpc))).1⟩
  · rintro ⟨hpos, hlt⟩
    have hlt32 : f.size < 2 ^ 32 := hlt.trans (by decide)
    refine ⟨fun s hr hpc => ?_, fun s hr => (reach_inv hr).sizes, fun s hr => reach_owned hr.of_restrict, ?_⟩
    · exact (((reach_inv hr).done hpc hpos).2 hlt32).trans (okHeader_line.mpr ⟨hlt, rfl⟩)
    · refine ⟨work f (begin f), fun rs s hrun => ?_⟩
      have hr := hrun.reach (.start rfl)
      have hwork := run_work hrun hlt32 (.start rfl)
      refine ⟨by omega, ?_⟩
      by_cases hpc : s.pc = .done
      · exact .inl hpc
      · exact .inr ((reach_inv hr).goes_on hpc)

/-- **`vsfile_memfs_read` keeps the contract of `vsfile_read`**: something, within the room and the file. -/
theorem memfsRead_legal (f : HttpFile) {offset size : ℕ} (hlt : offset < f.size) (hsize : 0 < size) :
    ∃ n, memfsRead f offset size = (f.bytes.drop offset).take n ∧ 0 < n ∧ n ≤ size ∧ offset + n ≤ f.size := by
  refine ⟨min size (f.size - offset), if_neg (Nat.not_le.mpr hlt), ?_, Nat.min_le_left _ _, ?_⟩
  · exact Nat.lt_min.mpr ⟨hsize, by omega⟩
  · omega

/-! ### Runs -/

/-- An empty file. -/
def emptyFile : HttpFile := ⟨ascii "empty.txt", [], Nat.two_pow_pos 64⟩

/-- **Nothing is sent for an empty file**: its header is released. -/
theorem empty_unsent : ¬ Served emptyFile ∧
    ∃ s, (served emptyFile).Reach s ∧ s.pc = .done ∧ s.handed = [] ∧ s.released = [1, 0] := by
  have hok : NoFail ⟨.ok, 0, true⟩ := ⟨nofun, rfl⟩
  have h1 := (System.Reach.start (S := served emptyFile) rfl).step (i := ⟨.ok, 0, true⟩) ⟨hok, ⟨nofun, nofun⟩, rfl⟩
  have h2 := h1.step (i := ⟨.ok, 0, true⟩) ⟨hok, ⟨nofun, nofun⟩, rfl⟩
  have h3 := h2.step (i := ⟨.ok, 0, true⟩) ⟨hok, ⟨nofun, nofun⟩, rfl⟩
  refine ⟨fun h => ?_, _, h3, rfl, rfl, rfl⟩
  exact absurd (h.whole _ h3 rfl) (by decide)

end Httpd
end Vsf
