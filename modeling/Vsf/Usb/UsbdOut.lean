/-
# Transfers to the device

`vsfusbd_ep_recv` takes `data_size` bytes from the host into a byte ring. The endpoint is enabled
for a packet when the ring has room; `vsfusbd_on_OUT_do` counts it before the packet received is in
the ring, and is two steps here, as the next packet may arrive in between. `Inv`: an enabled
endpoint has room for the packet still to be written and the largest one that may arrive.
-/
import Mathlib
import Vsf.Lib.System
import Vsf.Buffer.Stream
import Vsf.Usb.Usbd

namespace Vsf.Usbd

open List Option

/-- The OUT endpoint in hardware: it refuses, takes one packet, holds one. -/
inductive Hw where
  | off
  | armed
  | full (pkg : List UInt8)
  deriving DecidableEq

namespace Hw

/-- The bytes of the packet held. -/
def bytes : Hw → List UInt8
  | full pkg => pkg
  | _ => []

@[simp] theorem bytes_off : off.bytes = [] := rfl

@[simp] theorem bytes_armed : armed.bytes = [] := rfl

@[simp] theorem bytes_full (pkg : List UInt8) : (full pkg).bytes = pkg := rfl

/-- There is a packet to be read. -/
def held : Hw → Bool
  | full _ => true
  | _ => false

theorem held_iff {hw : Hw} : hw.held = true ↔ ∃ pkg, hw = .full pkg := by
  cases hw <;> simp [held]

end Hw

/-- A transfer to the device: endpoint, `struct vsfusbd_transact_t`, stream and event queue; and the
history: the enablings, the packets sent, what the reader took, the calls of `on_finish`, and what there was
at the start. -/
structure Out where
  ep : UInt32
  epSize : UInt16
  dataSize : UInt32
  idle : Bool
  /-- `OUT_transact[ep]` and `OUT_handler[ep]` are set. -/
  active : Bool
  stream : Stream Fifo
  /-- `callback_tx.on_inout` is set. -/
  onInout : Bool
  hw : Hw
  /-- The packet in `tmpbuf` and `last`, between the halves of `vsfusbd_on_OUT_do`. -/
  tmpbuf : Option (List UInt8 × Bool)
  queue : List UInt32
  enables : ℕ
  sent : List (List UInt8)
  taken : List UInt8
  finished : ℕ
  old : List UInt8
  length : ℕ

namespace Out

/-! ### The operations -/

/-- `vsfhal_usbd_ep_enable_OUT`. -/
def enable (s : Out) : Out := { s with hw := .armed, enables := s.enables + 1 }

/-- `transact->idle = free_size < pkg_size`, and the endpoint enabled if not. -/
def credit (s : Out) (freeSize : UInt32) : Out :=
  if freeSize < (pkgSize s.epSize s.dataSize).toUInt32 then { s with idle := true }
  else enable { s with idle := false }

/-- `vsfusbd_transact_out`. -/
def transactOut (s : Out) : Out :=
  if s.idle then s.credit s.stream.mem.getAvailLength else s

/-- `vsfusbd_ep_recv`; the endpoint number has been checked. -/
def epRecv (s : Out) : Out :=
  let s := { s with active := true, idle := true }
  if s.dataSize ≠ 0 then
    transactOut { s with onInout := true, stream := { s.stream with txReady := true } }
  else s.enable

/-- `vsfusbd_ep_cancel_recv`. -/
def cancelRecv (s : Out) : Out :=
  { s with onInout := false, active := false, finished := s.finished + 1 }

/-- `vsfusbd_on_OUT_do` up to `stream_write`. -/
def onOut (s : Out) : Out :=
  match s.hw with
  | .full pkg =>
    let s := { s with hw := .off }
    let pkgLen : UInt16 := UInt16.ofNat pkg.length
    if s.dataSize < pkgLen.toUInt32 then s
    else
      let s : Out := { s with dataSize := s.dataSize - pkgLen.toUInt32 }
      if s.dataSize ≠ 0 then
        let freeSize := s.stream.mem.getAvailLength - pkgLen.toUInt32
        let last := decide (pkgLen < s.epSize) || (!s.stream.rxReady && decide (freeSize < s.dataSize))
        if last then { s with idle := true, tmpbuf := some (pkg, true) }
        else credit { s with tmpbuf := some (pkg, false) } freeSize
      else { s with tmpbuf := some (pkg, true) }
  | _ => s

/-- `stream_write` of a packet. -/
def write (stream : Stream Fifo) (pkg : List UInt8) : Option (ℕ × Stream Fifo) :=
  Stream.write fifostreamOp id stream pkg.length (some fun i => pkg.getD i 0)

/-- `vsfusbd_on_OUT_do` from `stream_write` on. -/
def store (s : Out) : Out :=
  match s.tmpbuf with
  | some (pkg, last) =>
    let s := { s with
      tmpbuf := none
      stream := if pkg = [] then s.stream else (write s.stream pkg).elim s.stream Prod.snd }
    if last then s.cancelRecv else s
  | none => s

/-- The `default` branch of `vsfusbd_evt_handler`, for this endpoint. -/
def evtHandler (s : Out) (evt : UInt32) : Out :=
  match decode evt with
  | some (ep, kind) =>
    if ep = s.ep ∧ s.active then
      match kind with
      | .closeOut => if s.idle then s.cancelRecv else s
      | .streamOut => s.transactOut
      | .intOut => s.onOut
      | _ => s
    else s
  | none => s

/-- `stream_read` by the reader, and its call of `vsfusbd_stream_on_out`. -/
def read (s : Out) (n : UInt32) : Out :=
  let r := s.stream.mem.pop n none
  let s := { s with
    taken := s.taken ++ s.stream.mem.bytes.take r.1.toNat
    stream := { s.stream with mem := r.2.2 } }
  if s.stream.txReady ∧ s.onInout ∧ r.1 ≠ 0 then
    { s with queue := s.queue ++ [Kind.streamOut.word s.ep] }
  else s

/-! ### The runs -/

/-- What may happen next. -/
inductive Act where
  /-- The host sends a packet and the hardware reports it. -/
  | host (pkg : List UInt8)
  | read (n : UInt32)
  /-- An event from elsewhere, one of an earlier transfer too. -/
  | post (evt : UInt32)
  | handle
  | store

/-- Neither a report of a packet nor of the reader leaving. -/
def Foreign (ep evt : UInt32) : Prop :=
  ∀ e k, decode evt = some (e, k) → e = ep → k ≠ .intOut ∧ k ≠ .closeOut

/-- The host sends at most a packet and at most what is left. -/
inductive Step : Out → Act → Out → Prop
  | host {s : Out} {pkg : List UInt8} (harmed : s.hw = .armed)
      (hlen : pkg.length ≤ min s.epSize.toNat s.dataSize.toNat) :
      Step s (.host pkg) { s with
        hw := .full pkg, sent := s.sent ++ [pkg], queue := s.queue ++ [Kind.intOut.word s.ep] }
  | read {s : Out} (n : UInt32) : Step s (.read n) (s.read n)
  | post {s : Out} {evt : UInt32} (hevt : Foreign s.ep evt) : Step s (.post evt) { s with queue := s.queue ++ [evt] }
  | handle {s : Out} {evt : UInt32} {q : List UInt32} (hq : s.queue = evt :: q) (hbuf : s.tmpbuf = none) :
      Step s .handle ({ s with queue := q }.evtHandler evt)
  | store {s : Out} (hbuf : s.tmpbuf ≠ none) : Step s .store s.store

/-- The reader is connected, the ring can take a packet, the endpoint is off; the queue may hold old events. -/
structure Fresh (s : Out) : Prop where
  ep_le : s.ep ≤ 15
  size_pos : s.dataSize ≠ 0
  fifo : s.stream.mem.Inv
  capacity : s.epSize.toNat ≤ s.stream.mem.size.toNat - 1
  reader : s.stream.rxReady = true
  hw_off : s.hw = .off
  tmpbuf_none : s.tmpbuf = none
  foreign : ∀ evt ∈ s.queue, Foreign s.ep evt
  no_history : s.enables = 0 ∧ s.sent = [] ∧ s.taken = [] ∧ s.finished = 0
  old_eq : s.old = s.stream.mem.bytes
  length_eq : s.length = s.dataSize.toNat

/-- A transfer from `vsfusbd_ep_recv` on. -/
def system : System Out Act where
  start s := ∃ s₀, Fresh s₀ ∧ s = s₀.epRecv
  step := Step

/-! ### What holds in every run -/

/-- The bytes in `tmpbuf`. -/
def buf (s : Out) : List UInt8 := s.tmpbuf.elim [] Prod.fst

/-- `last`, of the packet in `tmpbuf`. -/
def last (s : Out) : Bool := s.tmpbuf.elim false Prod.snd

/-- The room left in the ring. -/
def room (s : Out) : ℕ := s.stream.mem.getAvailLength.toNat

/-- The largest packet the host may send now. -/
def largest (s : Out) : ℕ := min s.epSize.toNat s.dataSize.toNat

/-- The room the endpoint counts on. -/
def need (s : Out) : ℕ :=
  match s.hw with
  | .off => 0
  | .armed => s.largest
  | .full pkg => pkg.length

/-- The host sent a short packet or the last byte. -/
def Ended (s : Out) : Prop :=
  (∃ pkg, s.sent.getLast? = some pkg ∧ pkg.length < s.epSize.toNat) ∨ s.sent.flatten.length = s.length

/-- A report of a packet for this endpoint. -/
def isReport (ep evt : UInt32) : Bool := decide (decode evt = some (ep, .intOut))

/-- What every step keeps, the wish for the endpoint apart. -/
structure Base (s : Out) : Prop where
  ep_le : s.ep ≤ 15
  fifo : s.stream.mem.Inv
  capacity : s.epSize.toNat ≤ s.stream.mem.size.toNat - 1
  reader : s.stream.rxReady = true
  writer : s.stream.txReady = true
  fits : s.buf.length + s.need ≤ s.room
  pkg_le : ∀ pkg, s.hw = .full pkg → pkg.length ≤ s.largest ∧ s.sent.getLast? = some pkg
  size_pos : s.active = true → s.last = false → s.dataSize ≠ 0
  size_eq : s.sent.flatten.length + s.dataSize.toNat = s.length + s.hw.bytes.length
  bytes_eq : s.taken ++ s.stream.mem.bytes ++ s.buf ++ s.hw.bytes = s.old ++ s.sent.flatten
  enables_eq : s.enables = s.sent.length + if s.hw = .armed then 1 else 0
  finished_eq : s.finished = if s.active then 0 else 1
  done : s.active = false → s.tmpbuf = none
  listening : s.active = true → s.onInout = true
  ended : s.hw.held = false → (s.Ended ↔ s.active = false ∨ s.last = true)
  reports : s.queue.countP (isReport s.ep) = if s.hw.held then 1 else 0
  no_close : ∀ evt ∈ s.queue, decode evt ≠ some (s.ep, .closeOut)

/-- An endpoint not off is one of a transfer not idle; an idle one waits for room, or its event. -/
structure Inv (s : Out) : Prop extends Base s where
  enabled : s.hw ≠ .off → s.active = true ∧ s.idle = false ∧ s.last = false
  off_idle : s.active = true → s.hw = .off → s.last = false → s.idle = true
  waiting : s.active = true → s.idle = true → s.last = false → Kind.streamOut.word s.ep ∉ s.queue →
    s.room < s.buf.length + s.largest

theorem pkg_toNat {pkg : List UInt8} {epSize : UInt16} (h : pkg.length ≤ epSize.toNat) :
    (UInt16.ofNat pkg.length).toNat = pkg.length := by
  have := epSize.toNat_lt
  exact UInt16.toNat_ofNat_of_lt' (by rw [UInt16.size]; omega)

theorem largest_lt (s : Out) : s.largest ≤ s.epSize.toNat := Nat.min_le_left _ _

theorem write_fits {stream : Stream Fifo} (h : stream.mem.Inv) (pkg : List UInt8)
    (hfit : pkg.length ≤ stream.mem.getAvailLength.toNat) :
    ∃ stream', write stream pkg = some (pkg.length, stream') ∧ stream'.mem.Inv ∧
      stream'.mem.size = stream.mem.size ∧ stream'.mem.bytes = stream.mem.bytes ++ pkg ∧
      stream'.rxReady = stream.rxReady ∧ stream'.txReady = stream.txReady ∧
      stream'.overflow = stream.overflow := by
  have hlt := stream.mem.getAvailLength.toNat_lt
  have hn : (UInt32.ofNat pkg.length).toNat = pkg.length :=
    UInt32.toNat_ofNat_of_lt' (by rw [UInt32.size]; omega)
  have hpush := Fifo.push_bytes h (UInt32.ofNat pkg.length) (fun i => pkg.getD i 0)
  rw [Fifo.getAvailLength_toNat h, ← Fifo.bytes_length] at hfit
  rw [hn, if_pos hfit] at hpush
  obtain ⟨hret, hinv, hsize, hbytes⟩ := hpush
  have hpkg : Fifo.firstBytes (fun i => pkg.getD i 0) pkg.length = pkg := by
    apply ext_getElem
    · simp [Fifo.firstBytes]
    · intro i h1 h2
      simp [Fifo.firstBytes, h2]
  have hwrite : write stream pkg = some (pkg.length, { stream with
      mem := (stream.mem.push (UInt32.ofNat pkg.length) (some fun i => pkg.getD i 0)).2 }) := by
    unfold write
    generalize (fun i => pkg.getD i 0) = d at hret
    simp [Stream.write, fifostreamOp, Stream.afterWrite, hret, hn]
  exact ⟨_, hwrite, hinv, hsize, by rw [hbytes, hpkg], rfl, rfl, rfl⟩

variable {s : Out}

/-- The wish for the endpoint, where the room not spoken for is counted. -/
theorem Base.credit (h : Base s) (hoff : s.hw = .off) (hact : s.active = true) (hlast : s.last = false)
    {free : UInt32} (hfree : free.toNat = s.room - s.buf.length) : Inv (s.credit free) := by
  have hneed : s.need = 0 := by simp [need, hoff]
  have hfits := h.fits
  have hdata := h.size_pos hact hlast
  have hpkg : (pkgSize s.epSize s.dataSize).toUInt32.toNat = s.largest := by simp [largest]
  unfold Out.credit
  by_cases hlt : free < (pkgSize s.epSize s.dataSize).toUInt32
  · rw [if_pos hlt]
    rw [UInt32.lt_iff_toNat_lt, hpkg, hfree] at hlt
    exact { h with
      enabled := fun hne => absurd hoff hne
      off_idle := fun _ _ _ => rfl
      waiting := fun _ _ _ _ => show s.room < s.buf.length + s.largest by omega }
  · rw [if_neg hlt]
    rw [UInt32.lt_iff_toNat_lt, hpkg, hfree] at hlt
    have hbytes := h.bytes_eq
    have hsize := h.size_eq
    have hen := h.enables_eq
    have hended := h.ended
    have hrep := h.reports
    rw [hoff] at hbytes hsize hen hended hrep
    exact { h with
      fits := show s.buf.length + s.largest ≤ s.room by omega
      pkg_le := fun pkg hp => nomatch hp
      size_eq := hsize
      bytes_eq := hbytes
      enables_eq := by simp [enable, hen]
      ended := hended
      reports := hrep
      enabled := fun _ => ⟨hact, rfl, hlast⟩
      off_idle := fun _ hp => nomatch hp
      waiting := fun _ hp => nomatch hp }

theorem isReport_word {ep : UInt32} (h : ep ≤ 15) (k : Kind) : isReport ep (k.word ep) = decide (k = .intOut) := by
  simp [isReport, decode_word k h]

theorem Inv.host (h : Inv s) {pkg : List UInt8} (harmed : s.hw = .armed)
    (hlen : pkg.length ≤ min s.epSize.toNat s.dataSize.toNat) :
    Inv { s with hw := .full pkg, sent := s.sent ++ [pkg], queue := s.queue ++ [Kind.intOut.word s.ep] } := by
  have hon := h.enabled (by simp [harmed])
  have hfits := h.fits
  have hbytes := h.bytes_eq
  have hsize := h.size_eq
  have hen := h.enables_eq
  have hrep := h.reports
  simp only [need, harmed, Hw.bytes_armed, Hw.held, append_nil, length_nil] at hfits hbytes hsize hen hrep
  exact { h with
    fits := (Nat.add_le_add_left hlen _).trans hfits
    pkg_le := fun p hp => by
      obtain rfl := Hw.full.inj hp
      exact ⟨hlen, by simp⟩
    size_eq := by
      show (s.sent ++ [pkg]).flatten.length + s.dataSize.toNat = s.length + pkg.length
      simp only [flatten_append, flatten_cons, flatten_nil, append_nil, length_append]
      omega
    bytes_eq := by
      show s.taken ++ s.stream.mem.bytes ++ s.buf ++ pkg = s.old ++ (s.sent ++ [pkg]).flatten
      rw [hbytes]
      simp
    enables_eq := by simp [hen]
    ended := fun hh => nomatch hh
    reports := by
      show (s.queue ++ [Kind.intOut.word s.ep]).countP (isReport s.ep) = 1
      simp [hrep, isReport_word h.ep_le]
    no_close := fun evt he => by
      rcases mem_append.mp he with he | he
      · exact h.no_close evt he
      · rw [mem_singleton.mp he, decode_word _ h.ep_le]
        simp
    enabled := fun _ => hon
    off_idle := fun _ hp => nomatch hp
    waiting := fun _ hp => by
      rw [show s.idle = false from hon.2.1] at hp
      cases hp }

theorem Inv.post (h : Inv s) {evt : UInt32} (hevt : Foreign s.ep evt) :
    Inv { s with queue := s.queue ++ [evt] } := by
  exact { h with
    reports := by
      show (s.queue ++ [evt]).countP (isReport s.ep) = _
      have hno : isReport s.ep evt = false := by
        apply decide_eq_false
        intro hd
        exact (hevt _ _ hd rfl).1 rfl
      simp [hno, h.reports]
    no_close := fun e he => by
      rcases mem_append.mp he with he | he
      · exact h.no_close e he
      · rw [mem_singleton.mp he]
        intro hd
        exact (hevt _ _ hd rfl).2 rfl
    waiting := fun h1 h2 h3 h4 => h.waiting h1 h2 h3 fun hm => h4 (mem_append_left _ hm) }

theorem Inv.read {s : Out} (h : Inv s) (n : UInt32) : Inv (s.read n) := by
  obtain ⟨hret, -, hinv, hsize, hbytes⟩ := Fifo.pop_bytes h.fifo n none
  have hlen := Fifo.peek_length (f := s.stream.mem) n none
  rw [← hret] at hlen
  have hdrop : s.stream.mem.bytes.drop n.toNat = s.stream.mem.bytes.drop (s.stream.mem.pop n none).1.toNat := by
    rw [drop_eq_drop_iff, hlen]
    omega
  have hroom := Fifo.getAvailLength_toNat h.fifo
  have hroom' := Fifo.getAvailLength_toNat hinv
  have hlt := Fifo.getDataLength_lt h.fifo
  rw [← Fifo.bytes_length] at hroom hroom' hlt
  rw [hbytes, hsize, hdrop, length_drop] at hroom'
  have hmore : s.room + (s.stream.mem.pop n none).1.toNat = (s.stream.mem.pop n none).2.2.getAvailLength.toNat := by
    unfold room
    omega
  have hsum : s.taken ++ s.stream.mem.bytes.take (s.stream.mem.pop n none).1.toNat ++
      (s.stream.mem.pop n none).2.2.bytes = s.taken ++ s.stream.mem.bytes := by
    rw [hbytes, hdrop, append_assoc, take_append_drop]
  have hfits := h.fits
  -- `more` is what `vsfusbd_stream_on_out` posts
  have hkeep : ∀ more, (∀ evt ∈ more, evt = Kind.streamOut.word s.ep) →
      (s.active = true → (s.stream.mem.pop n none).1 ≠ 0 → Kind.streamOut.word s.ep ∈ more) →
      Inv { s with
        taken := s.taken ++ s.stream.mem.bytes.take (s.stream.mem.pop n none).1.toNat
        stream := { s.stream with mem := (s.stream.mem.pop n none).2.2 }
        queue := s.queue ++ more } := by
    intro more honly hpost
    have hdec : ∀ evt ∈ more, decode evt = some (s.ep, .streamOut) := fun evt he => by
      rw [honly evt he, decode_word _ h.ep_le]
    exact { h with
      fifo := hinv
      capacity := by
        show s.epSize.toNat ≤ (s.stream.mem.pop n none).2.2.size.toNat - 1
        rw [hsize]
        exact h.capacity
      fits := show s.buf.length + s.need ≤ (s.stream.mem.pop n none).2.2.getAvailLength.toNat by omega
      bytes_eq := by
        show s.taken ++ _ ++ (s.stream.mem.pop n none).2.2.bytes ++ s.buf ++ s.hw.bytes = _
        rw [hsum]
        exact h.bytes_eq
      reports := by
        have hnone : more.countP (isReport s.ep) = 0 := by
          apply countP_eq_zero.mpr
          intro evt he
          simp [isReport, hdec evt he]
        show (s.queue ++ more).countP (isReport s.ep) = _
        rw [countP_append, hnone, h.reports, add_zero]
      no_close := fun evt he => by
        rcases mem_append.mp he with he | he
        · exact h.no_close evt he
        · simp [hdec evt he]
      waiting := fun h1 h2 h3 h4 => by
        have hzero : (s.stream.mem.pop n none).1 = 0 := by
          by_contra hne
          exact h4 (mem_append_right _ (hpost h1 hne))
        have hw := h.waiting h1 h2 h3 fun hm => h4 (mem_append_left _ hm)
        rw [hzero, UInt32.toNat_zero] at hmore
        show (s.stream.mem.pop n none).2.2.getAvailLength.toNat < s.buf.length + s.largest
        omega }
  unfold Out.read
  by_cases hcall : s.stream.txReady ∧ s.onInout ∧ (s.stream.mem.pop n none).1 ≠ 0
  · simp only
    rw [if_pos hcall]
    apply hkeep
    · simp
    · simp
  · have hnil := hkeep [] (fun _ he => nomatch he) fun hact hne => absurd ⟨h.writer, h.listening hact, hne⟩ hcall
    rw [append_nil] at hnil
    simp only
    rw [if_neg hcall]
    exact hnil

theorem Base.drop (h : Base s) {evt : UInt32} {q : List UInt32} (hq : s.queue = evt :: q)
    (hno : decode evt ≠ some (s.ep, .intOut)) : Base { s with queue := q } := by
  have hrep := h.reports
  rw [hq, countP_cons_of_neg (by simp [isReport, hno])] at hrep
  exact { h with
    reports := hrep
    no_close := fun e he => h.no_close e (by rw [hq]; exact mem_cons_of_mem _ he) }

theorem Inv.drop (h : Inv s) {evt : UInt32} {q : List UInt32} (hq : s.queue = evt :: q)
    (hno : decode evt ≠ some (s.ep, .intOut))
    (hroom : s.active = false ∨ s.idle = false ∨ decode evt ≠ some (s.ep, .streamOut)) :
    Inv { s with queue := q } := by
  exact { h.toBase.drop hq hno with
    enabled := h.enabled
    off_idle := h.off_idle
    waiting := fun h1 h2 h3 h4 => by
      rcases hroom with hr | hr | hr
      · exact absurd (h1.symm.trans hr) (by simp)
      · exact absurd (h2.symm.trans hr) (by simp)
      · apply h.waiting h1 h2 h3
        intro hm
        rw [hq] at hm
        rcases mem_cons.mp hm with he | hm
        · rw [← he, decode_word _ h.ep_le] at hr
          exact hr rfl
        · exact h4 hm }

theorem Inv.transactOut (h : Inv s) {evt : UInt32} {q : List UInt32} (hq : s.queue = evt :: q)
    (hbuf : s.tmpbuf = none) (hact : s.active = true) (hevt : decode evt = some (s.ep, .streamOut)) :
    Inv (transactOut { s with queue := q }) := by
  have hno : decode evt ≠ some (s.ep, .intOut) := by simp [hevt]
  unfold Out.transactOut
  by_cases hidle : s.idle = true
  · rw [if_pos hidle]
    have hoff : s.hw = .off := by
      by_contra hne
      exact absurd (hidle.symm.trans (h.enabled hne).2.1) (by simp)
    apply (h.toBase.drop hq hno).credit hoff hact
    · simp [last, hbuf]
    · simp [room, buf, hbuf]
  · rw [if_neg hidle]
    exact h.drop hq hno (.inr (.inl (by simpa using hidle)))

theorem Inv.onOut (h : Inv s) {evt : UInt32} {q : List UInt32} (hq : s.queue = evt :: q)
    (hbuf : s.tmpbuf = none) (hact : s.active = true) (hevt : decode evt = some (s.ep, .intOut)) :
    Inv (onOut { s with queue := q }) := by
  have hrep := h.reports
  rw [hq, countP_cons_of_pos (by simp [isReport, hevt])] at hrep
  obtain ⟨pkg, hfull⟩ : ∃ pkg, s.hw = .full pkg := by
    apply Hw.held_iff.mp
    by_contra hne
    rw [if_neg hne] at hrep
    omega
  have hrep' : q.countP (isReport s.ep) = 0 := by
    rw [hfull] at hrep
    simpa [Hw.held] using hrep
  have hbuf0 : s.buf = [] := by simp [buf, hbuf]
  have hlast0 : s.last = false := by simp [last, hbuf]
  obtain ⟨hle, hpkg⟩ := h.pkg_le pkg hfull
  have hlen : pkg.length ≤ s.epSize.toNat := hle.trans s.largest_lt
  have hdata : pkg.length ≤ s.dataSize.toNat := hle.trans (Nat.min_le_right _ _)
  have hn := pkg_toNat hlen
  have hn32 : (UInt16.ofNat pkg.length).toUInt32.toNat = pkg.length := by rw [UInt16.toNat_toUInt32, hn]
  have hfits := h.fits
  have hbytes := h.bytes_eq
  have hsize := h.size_eq
  have hen := h.enables_eq
  simp only [need, hfull, hbuf0, Hw.bytes_full, append_nil, length_nil, zero_add] at hfits hbytes hsize hen
  have hsub : (s.dataSize - (UInt16.ofNat pkg.length).toUInt32).toNat = s.dataSize.toNat - pkg.length := by
    rw [UInt32.toNat_sub_of_le _ _ (UInt32.le_iff_toNat_le.mpr (by omega)), hn32]
  -- what is kept whatever comes next
  have hbase : ∀ d last idle, d = s.dataSize - (UInt16.ofNat pkg.length).toUInt32 → (last = false → d ≠ 0) →
      (s.Ended ↔ last = true) →
      Base { s with queue := q, hw := .off, dataSize := d, tmpbuf := some (pkg, last), idle := idle } := by
    intro d last idle hd hlast hended
    subst hd
    exact { h with
      fits := hfits
      pkg_le := fun p hp => nomatch hp
      size_pos := fun _ hl => hlast hl
      size_eq := by
        show s.sent.flatten.length + (s.dataSize - (UInt16.ofNat pkg.length).toUInt32).toNat = s.length
        omega
      bytes_eq := by
        show s.taken ++ s.stream.mem.bytes ++ pkg ++ [] = s.old ++ s.sent.flatten
        rw [append_nil, hbytes]
      enables_eq := hen
      done := fun hp => absurd (hact.symm.trans hp) (by simp)
      ended := fun _ => hended.trans ⟨.inr, fun hor => hor.resolve_left fun hp => absurd (hact.symm.trans hp) (by simp)⟩
      reports := hrep'
      no_close := fun e he => h.no_close e (by rw [hq]; exact mem_cons_of_mem _ he) }
  have hlong : ¬ s.dataSize < (UInt16.ofNat pkg.length).toUInt32 := by
    rw [UInt32.lt_iff_toNat_lt, hn32]
    omega
  have hshort : UInt16.ofNat pkg.length < s.epSize ↔ pkg.length < s.epSize.toNat := by
    rw [UInt16.lt_iff_toNat_lt, hn]
  have hend : s.Ended ↔ pkg.length < s.epSize.toNat ∨ s.sent.flatten.length = s.length := by
    simp [Ended, hpkg]
  -- a last packet is stored, then the transfer is over
  have hover : ∀ d idle, d = s.dataSize - (UInt16.ofNat pkg.length).toUInt32 → s.Ended →
      Inv { s with queue := q, hw := .off, dataSize := d, tmpbuf := some (pkg, true), idle := idle } := by
    intro d idle hd hended
    exact { hbase d true idle hd (fun hl => nomatch hl) ⟨fun _ => rfl, fun _ => hended⟩ with
      enabled := fun hne => absurd rfl hne
      off_idle := fun _ _ hl => nomatch hl
      waiting := fun _ _ hl => nomatch hl }
  unfold Out.onOut
  simp only [hfull, hlong, if_false]
  by_cases hrest : s.dataSize - (UInt16.ofNat pkg.length).toUInt32 = 0
  · rw [if_neg (not_not.mpr hrest)]
    apply hover _ _ rfl
    apply hend.mpr
    right
    rw [hrest, UInt32.toNat_zero] at hsub
    omega
  · rw [if_pos hrest]
    by_cases hs : pkg.length < s.epSize.toNat
    · simp only [hshort, hs, decide_true, Bool.true_or, if_true]
      exact hover _ _ rfl (hend.mpr (.inl hs))
    · simp only [hshort, hs, h.reader, decide_false, Bool.not_true, Bool.false_and, Bool.or_self, if_neg Bool.false_ne_true]
      have hmore : (s.dataSize - (UInt16.ofNat pkg.length).toUInt32).toNat ≠ 0 := fun hz =>
        hrest (UInt32.toNat_inj.mp hz)
      apply (hbase _ false s.idle rfl (fun _ => hrest) _).credit rfl hact rfl
      · rw [UInt32.toNat_sub_of_le _ _ (UInt32.le_iff_toNat_le.mpr (by rw [hn32]; exact hfits)), hn32]
        rfl
      · rw [hend]
        constructor
        · rintro (hp | hp)
          · exact absurd hp hs
          · omega
        · intro hp
          cases hp

theorem Inv.store (h : Inv s) (hbuf : s.tmpbuf ≠ none) : Inv s.store := by
  obtain ⟨⟨pkg, last⟩, hpkg⟩ := ne_none_iff_exists'.mp hbuf
  have hact : s.active = true := by
    by_contra hne
    exact hbuf (h.done (by simpa using hne))
  have hb : s.buf = pkg := by simp [buf, hpkg]
  have hl : s.last = last := by simp [Out.last, hpkg]
  have hfits := h.fits
  rw [hb] at hfits
  -- an empty packet is not written, and would not change the ring
  obtain ⟨stream, hstream, hinv, hsize, hbytes, hrx, htx⟩ : ∃ stream,
      (if pkg = [] then s.stream else (write s.stream pkg).elim s.stream Prod.snd) = stream ∧ stream.mem.Inv ∧
        stream.mem.size = s.stream.mem.size ∧ stream.mem.bytes = s.stream.mem.bytes ++ pkg ∧
        stream.rxReady = s.stream.rxReady ∧ stream.txReady = s.stream.txReady := by
    by_cases hnil : pkg = []
    · refine ⟨s.stream, if_pos hnil, h.fifo, rfl, ?_, rfl, rfl⟩
      rw [hnil, append_nil]
    · obtain ⟨stream, hw, h1, h2, h3, h4, h5, -⟩ := write_fits h.fifo pkg (by unfold room at hfits; omega)
      exact ⟨stream, by rw [if_neg hnil, hw]; rfl, h1, h2, h3, h4, h5⟩
  have hroom : stream.mem.getAvailLength.toNat + pkg.length = s.room := by
    have h1 := Fifo.getAvailLength_toNat h.fifo
    have h2 := Fifo.getAvailLength_toNat hinv
    rw [← Fifo.bytes_length] at h1 h2
    rw [hbytes, hsize, length_append] at h2
    unfold room at hfits ⊢
    omega
  have hsum := h.bytes_eq
  rw [hb] at hsum
  have hbase : ∀ active onInout finished, (finished = if active then 0 else 1) → (active = true → onInout = true) →
      (active = true → s.dataSize ≠ 0) → (s.hw.held = false → (s.Ended ↔ active = false)) →
      Base { s with tmpbuf := none, stream := stream, active := active, onInout := onInout, finished := finished } := by
    intro active onInout finished hfin hlist hdata hended
    exact { h with
      fifo := hinv
      capacity := by
        show s.epSize.toNat ≤ stream.mem.size.toNat - 1
        rw [hsize]
        exact h.capacity
      reader := hrx.trans h.reader
      writer := htx.trans h.writer
      fits := by
        show 0 + s.need ≤ stream.mem.getAvailLength.toNat
        omega
      size_pos := fun ha _ => hdata ha
      bytes_eq := by
        show s.taken ++ stream.mem.bytes ++ [] ++ s.hw.bytes = _
        rw [hbytes, append_nil, ← hsum]
        simp
      finished_eq := hfin
      done := fun _ => rfl
      listening := hlist
      ended := fun hh => (hended hh).trans ⟨.inl, fun hor => hor.resolve_right fun hp => nomatch hp⟩ }
  unfold Out.store
  simp only [hpkg, hstream]
  cases last with
  | true =>
    have hoff : s.hw = .off := by
      by_contra hne
      exact absurd (hl.symm.trans (h.enabled hne).2.2) (by simp)
    have hend : s.Ended := (h.ended (by simp [hoff, Hw.held])).mpr (.inr hl)
    have hfin := h.finished_eq
    rw [if_pos hact] at hfin
    rw [if_pos rfl]
    exact { hbase false false (s.finished + 1) (by simp [hfin]) (fun hp => nomatch hp) (fun hp => nomatch hp)
        (fun _ => ⟨fun _ => rfl, fun _ => hend⟩) with
      enabled := fun hne => absurd hoff hne
      off_idle := fun hp => nomatch hp
      waiting := fun hp => nomatch hp }
  | false =>
    rw [if_neg Bool.false_ne_true]
    have hold := hbase s.active s.onInout s.finished h.finished_eq h.listening (fun ha => h.size_pos ha hl)
      (fun hh => (h.ended hh).trans ⟨fun hor => hor.resolve_right (by simp [hl]), .inl⟩)
    exact { hold with
      enabled := fun hne => ⟨hact, (h.enabled hne).2.1, rfl⟩
      off_idle := fun ha hoff _ => h.off_idle ha hoff hl
      waiting := fun ha hi _ hq => by
        have hw := h.waiting ha hi hl hq
        rw [hb] at hw
        show stream.mem.getAvailLength.toNat < 0 + s.largest
        omega }

theorem Inv.handle {s : Out} (h : Inv s) {evt : UInt32} {q : List UInt32} (hq : s.queue = evt :: q)
    (hbuf : s.tmpbuf = none) : Inv ({ s with queue := q }.evtHandler evt) := by
  have hclose := h.no_close evt (by rw [hq]; exact mem_cons_self)
  unfold evtHandler
  cases hd : decode evt with
  | none => exact h.drop hq (by simp [hd]) (by simp [hd])
  | some r =>
    obtain ⟨ep, kind⟩ := r
    simp only
    by_cases hours : ep = s.ep ∧ s.active
    · obtain ⟨rfl, hact⟩ := hours
      rw [if_pos ⟨rfl, hact⟩]
      cases kind with
      | closeOut => exact absurd hd hclose
      | streamOut => exact h.transactOut hq hbuf hact hd
      | intOut => exact h.onOut hq hbuf hact hd
      | intIn => exact h.drop hq (by simp [hd]) (by simp [hd])
      | streamIn => exact h.drop hq (by simp [hd]) (by simp [hd])
      | closeIn => exact h.drop hq (by simp [hd]) (by simp [hd])
    · rw [if_neg hours]
      by_cases hep : ep = s.ep
      · -- the transfer is over, so the hardware has no packet to report
        subst hep
        have hact : s.active = false := by simpa using hours
        have hoff : s.hw = .off := by
          by_contra hne
          exact absurd (hact.symm.trans (h.enabled hne).1) (by simp)
        have hno : decode evt ≠ some (s.ep, .intOut) := by
          intro hd'
          have hrep := h.reports
          rw [hq, countP_cons_of_pos (by simp [isReport, hd']), hoff] at hrep
          simp [Hw.held] at hrep
        exact h.drop hq hno (.inl hact)
      · exact h.drop hq (by simp [hd, hep]) (by simp [hd, hep])

theorem Fresh.inv (h : Fresh s) : Inv s.epRecv := by
  obtain ⟨h1, h2, h3, h4⟩ := h.no_history
  have hpos : s.dataSize.toNat ≠ 0 := fun hz => h.size_pos (UInt32.toNat_inj.mp hz)
  have hbuf : s.tmpbuf = none := h.tmpbuf_none
  unfold epRecv
  simp only [ne_eq, h.size_pos, not_false_eq_true, if_true]
  unfold Out.transactOut
  rw [if_pos rfl]
  have hbase : Base { s with
      active := true, idle := true, onInout := true, stream := { s.stream with txReady := true } } := {
      ep_le := h.ep_le
      fifo := h.fifo
      capacity := h.capacity
      reader := h.reader
      writer := rfl
      fits := by simp [buf, need, hbuf, h.hw_off]
      pkg_le := fun pkg hp => by simp [h.hw_off] at hp
      size_pos := fun _ _ => h.size_pos
      size_eq := by simp [h2, h.hw_off, h.length_eq]
      bytes_eq := by simp [h2, h3, buf, hbuf, h.hw_off, h.old_eq]
      enables_eq := by simp [h1, h2, h.hw_off]
      finished_eq := h4
      done := fun _ => hbuf
      listening := fun _ => rfl
      ended := fun _ => by
        simp only [Ended, h2, last, hbuf, h.length_eq]
        simpa using hpos.symm
      reports := by
        show s.queue.countP (isReport s.ep) = _
        rw [h.hw_off]
        apply countP_eq_zero.mpr
        intro evt he hrep
        exact (h.foreign evt he _ _ (of_decide_eq_true hrep) rfl).1 rfl
      no_close := fun evt he hd => (h.foreign evt he _ _ hd rfl).2 rfl }
  apply hbase.credit h.hw_off rfl
  · simp [last, hbuf]
  · simp [room, buf, hbuf]

theorem Inv.step {s' : Out} {a : Act} (h : Inv s) (hst : Step s a s') : Inv s' := by
  cases hst with
  | host harmed hlen => exact h.host harmed hlen
  | read n => exact h.read n
  | post hevt => exact h.post hevt
  | handle hq hbuf => exact h.handle hq hbuf
  | store hbuf => exact h.store hbuf

theorem reach_inv (h : system.Reach s) : Inv s := by
  apply h.invariant
  · rintro s ⟨s₀, hfresh, rfl⟩
    exact hfresh.inv
  · intro s a s' _ hi hst
    exact hi.step hst

/-- What a transfer owes its user: room for what may arrive, one packet per enabling, each packet reported,
taken from the endpoint by its event and then written to the ring, none refused, the host's bytes in order,
`on_finish` with the last of them and not before, and it waits only for the reader. -/
structure Correct (s : Out) : Prop where
  room : s.hw = .armed → s.buf.length + min s.epSize.toNat s.dataSize.toNat ≤ s.stream.mem.getAvailLength.toNat
  once : s.enables = s.sent.length + if s.hw = .armed then 1 else 0
  reported : ∀ pkg, s.hw = .full pkg → ∃ evt ∈ s.queue, decode evt = some (s.ep, .intOut)
  fetched : ∀ pkg evt q, s.hw = .full pkg → s.tmpbuf = none → s.queue = evt :: q →
    decode evt = some (s.ep, .intOut) →
      ({ s with queue := q }.evtHandler evt).buf = pkg ∧ ({ s with queue := q }.evtHandler evt).hw.held = false
  stored : ∀ pkg last, s.tmpbuf = some (pkg, last) →
    (∃ stream, write s.stream pkg = some (pkg.length, stream)) ∧ s.store.tmpbuf = none ∧
      s.store.stream.mem.bytes = s.stream.mem.bytes ++ pkg ∧ s.store.finished = s.finished + if last then 1 else 0
  bytes : s.taken ++ s.stream.mem.bytes ++ s.buf ++ s.hw.bytes = s.old ++ s.sent.flatten
  finished : s.finished = 0 ∨ s.finished = 1
  finished_iff : s.finished = 1 ↔ s.Ended ∧ s.hw.held = false ∧ s.tmpbuf = none
  reader : s.finished = 0 → s.hw = .off → s.tmpbuf = none → s.queue = [] → s.stream.mem.bytes ≠ []

/-- The event of a packet takes it from the endpoint. -/
theorem Inv.fetched (h : Inv s) {pkg : List UInt8} {evt : UInt32} {q : List UInt32} (hfull : s.hw = .full pkg)
    (hevt : decode evt = some (s.ep, .intOut)) :
    ({ s with queue := q }.evtHandler evt).buf = pkg ∧ ({ s with queue := q }.evtHandler evt).hw.held = false := by
  have hact : s.active = true := (h.enabled (by simp [hfull])).1
  obtain ⟨hle, -⟩ := h.pkg_le pkg hfull
  have hn := pkg_toNat (hle.trans s.largest_lt)
  have hlong : ¬ s.dataSize < (UInt16.ofNat pkg.length).toUInt32 := by
    rw [UInt32.lt_iff_toNat_lt, UInt16.toNat_toUInt32, hn]
    exact Nat.not_lt.mpr (hle.trans (Nat.min_le_right _ _))
  have hdo : { s with queue := q }.evtHandler evt = Out.onOut { s with queue := q } := by
    simp [evtHandler, hevt, hact]
  rw [hdo]
  unfold Out.onOut
  simp only [hfull, hlong, if_false]
  -- the packet goes to `tmpbuf` on every way, and `credit` leaves it there
  split_ifs
  · exact ⟨rfl, rfl⟩
  · unfold Out.credit
    split_ifs <;> exact ⟨rfl, rfl⟩
  · exact ⟨rfl, rfl⟩

/-- The second half of `vsfusbd_on_OUT_do` writes the packet, and ends the transfer with the last. -/
theorem Inv.stored (h : Inv s) {pkg : List UInt8} {last : Bool} (hpkg : s.tmpbuf = some (pkg, last)) :
    (∃ stream, write s.stream pkg = some (pkg.length, stream)) ∧ s.store.tmpbuf = none ∧
      s.store.stream.mem.bytes = s.stream.mem.bytes ++ pkg ∧ s.store.finished = s.finished + if last then 1 else 0 := by
  have hfits := h.fits
  simp only [buf, hpkg, elim_some] at hfits
  obtain ⟨stream, hw, -, -, hbytes, -⟩ := write_fits h.fifo pkg (by
    unfold Out.room at hfits
    omega)
  have hnew : (if pkg = [] then s.stream else (write s.stream pkg).elim s.stream Prod.snd).mem.bytes =
      s.stream.mem.bytes ++ pkg := by
    by_cases hnil : pkg = []
    · rw [if_pos hnil, hnil, append_nil]
    · rw [if_neg hnil, hw]
      exact hbytes
  refine ⟨⟨stream, hw⟩, ?_⟩
  unfold Out.store
  simp only [hpkg]
  cases last with
  | true => exact ⟨rfl, hnew, rfl⟩
  | false => exact ⟨rfl, hnew, rfl⟩

/-- Two bytes into a ring of three, over endpoint 1. -/
def twoBytes : Out where
  ep := 1
  epSize := 2
  dataSize := 2
  idle := false
  active := false
  stream := ⟨⟨fun _ => 0, 4, 0, 0⟩, false, true, false⟩
  onInout := false
  hw := .off
  tmpbuf := none
  queue := []
  enables := 0
  sent := []
  taken := []
  finished := 0
  old := []
  length := 2

end Out

end Vsf.Usbd
