/-
# Streams between a storage and a peer

`vsf_malstream_read_thread` reads a range block by block into the buffers of a stream,
`vsf_malstream_write_thread` writes them to a range: one protothread the other way round (`Dir`). It
does not leave its last state when it returns, so left-over `ON_INOUT` events enter it again: it
calls the driver once more, behind the range, and reports the end twice. `Meets` is that no event
gets so far (`blocks_once`).
-/
import Mathlib
import Vsf.Lib.System
import Vsf.Framework.Evtq
import Vsf.Buffer.Multibuf

namespace Vsf

open List Option

/-- Which of the two threads. -/
inductive Dir where
  | read
  | write
  deriving DecidableEq, Repr

/-- A driver of one block size: its event, and the device. `VSF_MALSTREAM_ON_INOUT` is foreign to it. -/
structure Driver where
  blocksize : UInt32
  event : Evt
  content : UInt64 → UInt8
  event_own : event ≠ Evt.user ∧ event ≠ Evt.init ∧ event ≠ Evt.enter ∧ event ≠ Evt.exit

/-- The bytes of the device from an address on. -/
def Driver.block (drv : Driver) (addr : UInt64) (i : ℕ) : UInt8 := drv.content (addr + UInt64.ofNat i)

/-- One end of a stream: if it is ready, and has an `on_inout`. -/
structure End where
  ready : Bool
  onInout : Bool
  deriving DecidableEq, Repr

/-- Where `pt->state` is: the beginning, the `vsfsm_pt_wfe`, or the driver's `vsfsm_pt_entry`. -/
inductive PtState where
  | begin
  | wait
  | drv
  deriving DecidableEq, Repr

/-- What the peer may do: read or write the other way, or change its end. -/
inductive PeerOp where
  | call (n : ℕ) (data : Option (ℕ → UInt8))
  | set (e : End)

/-- A driver's return: not ready, with `d` if it fills the buffer, success, with the peer's `ops`, or an
error. -/
inductive DrvReturn where
  | suspend (d : ℕ → UInt8)
  | ok (ops : List PeerOp)
  | fail

/-- `struct vsf_malstream_t`, its stream, the driver's protothread and the queue; `own` is the thread's end,
the last fields the history. -/
structure Malstream where
  addr : UInt64
  size : UInt32
  offset : UInt32
  /-- `mal->op_block_size`. -/
  opBlockSize : UInt32
  /-- The stream, all that was written to it and all that was taken from it. -/
  io : Mbufstream.Trace
  own : End
  peer : End
  state : PtState
  /-- `mal->pt.state` is not 0. -/
  malState : Bool
  /-- The hardware has an event to post. -/
  hw : Bool
  queue : List Evt
  /-- What the thread returned, other than `VSFERR_NOT_READY`. -/
  result : Option Int32
  /-- How often `on_finish` was called. -/
  finished : ℕ
  failed : Bool
  /-- The blocks the driver has done: the address and the bytes. -/
  log : List (UInt64 × List UInt8)
  /-- What the stream held at the start. -/
  base : List UInt8
  /-- A driver was given a `NULL` buffer. -/
  wild : Bool

/-! ### Where the two threads differ -/

namespace Dir

/-- `stream_get_free_size` of a read, `stream_get_data_size` of a write. -/
def avail : Dir → Mbufstream → ℕ
  | .read => Mbufstream.getAvailLength
  | .write => Mbufstream.getDataLength

/-- `vsf_multibuf_get_empty` and `vsf_multibuf_get_payload`. -/
def buffer : Dir → Multibuf → Option ℕ
  | .read => Multibuf.getEmpty
  | .write => Multibuf.getPayload

/-- `vsf_multibuf_push` and `vsf_multibuf_pop`. -/
def hand : Dir → Multibuf → Multibuf
  | .read => Multibuf.push
  | .write => Multibuf.pop

/-- The call of the peer. -/
def op : Dir → ℕ → Option (ℕ → UInt8) → Mbufstream.Op
  | .read => .read
  | .write => .write

/-- What the call of the peer returns. -/
def count : Dir → Mbufstream → ℕ → Option (ℕ → UInt8) → Option ℕ
  | .read, m, n, data => (m.read n data).map Prod.fst
  | .write, m, n, data => (m.write n data).map Prod.fst

end Dir

/-- The `n` bytes of the buffer `b` become `d`. -/
def Mbufstream.put (m : Mbufstream) (b : ℕ) (d : ℕ → UInt8) (n : ℕ) : Mbufstream :=
  { m with multibuf := { m.multibuf with
    bufferList := Function.update m.multibuf.bufferList b (RingBuf.copy (m.multibuf.bufferList b) 0 d 0 n) } }

/-- The first `n` bytes of the buffer `b`. -/
def Mbufstream.peekAt (m : Mbufstream) (b n : ℕ) : List UInt8 := (List.range n).map (m.multibuf.bufferList b)

namespace Dir

/-- A driver that reads fills the buffer, one that writes leaves it. -/
def touch : Dir → Mbufstream → ℕ → (ℕ → UInt8) → ℕ → Mbufstream
  | .read, m, b, d, n => m.put b d n
  | .write, m, _, _, _ => m

/-- The buffer that is handed over, in the history of the stream. -/
def record : Dir → Mbufstream.Trace → Mbufstream → List UInt8 → Mbufstream.Trace
  | .read, t, m, bs => ⟨m, t.written ++ bs, t.taken⟩
  | .write, t, m, bs => ⟨m, t.written, t.taken ++ bs⟩

/-- No buffer is handed over while the other side is in the middle of it. -/
def clean : Dir → Mbufstream → Prop
  | .read, m => m.wpos = 0
  | .write, m => m.rpos = 0

end Dir

namespace Malstream

/-! ### The threads -/

/-- `stream_read` and `stream_write` of the peer, or a change of its end. -/
def peerCall (dir : Dir) (s : Malstream) : PeerOp → Option Malstream
  | .call n data =>
    (dir.count s.io.s n data).bind fun count => (s.io.step (dir.op n data)).map fun io =>
      { s with
        io := io
        queue := s.queue ++ if s.own.ready ∧ s.own.onInout ∧ count ≠ 0 then [Evt.user] else [] }
  | .set e => some { s with peer := e }

/-- The `end:` of a thread: it disconnects and calls `on_finish`. -/
def finish (s : Malstream) : Malstream :=
  { s with own := { s.own with ready := false }, finished := s.finished + 1, result := some 0 }

/-- "fix before callback": a read clears its own callback, a write the peer's. -/
def fix (dir : Dir) (s : Malstream) : Malstream :=
  match dir with
  | .read => { s with own := { s.own with onInout := false } }
  | .write => { s with peer := { s.peer with onInout := false } }

/-- The loop up to the next call of the driver: whether there is one. -/
def top (dir : Dir) (s : Malstream) : Malstream × Bool :=
  if s.offset < s.size then
    if dir.avail s.io.s < s.opBlockSize.toNat then
      ({ s with own := { s.own with onInout := true }, state := .wait }, false)
    else ({ s with state := .drv, malState := false }, true)
  else (s.finish, false)

/-- A block is done and its buffer handed over. -/
def complete (dir : Dir) (drv : Driver) (s : Malstream) (b : ℕ) : Malstream :=
  let curAddr := s.addr + s.offset.toUInt64
  let n := s.opBlockSize.toNat
  let m := dir.touch s.io.s b (drv.block curAddr) n
  let block := m.peekAt b n
  let s := { s with
    io := dir.record s.io { m with multibuf := dir.hand m.multibuf } block
    log := s.log ++ [(curAddr, block)]
    offset := s.offset + s.opBlockSize }
  if s.offset ≥ s.size then s.fix dir else s

/-- A call of the driver and the loop up to the next one: whether there is one. -/
def drive (dir : Dir) (drv : Driver) (s : Malstream) (o : DrvReturn) : Option (Malstream × Bool) :=
  match dir.buffer s.io.s.multibuf, o with
  | none, _ => some ({ s with wild := true }, false)
  | some b, .suspend d =>
    some ({ s with
      io := { s.io with s := dir.touch s.io.s b d s.opBlockSize.toNat }
      malState := true
      hw := true }, false)
  | some _, .fail => some ({ s with failed := true }.finish, false)
  | some b, .ok ops =>
    let s := s.complete dir drv b
    let ops := if s.peer.ready ∧ s.peer.onInout then ops else []
    (ops.foldlM (peerCall dir) s).map (top dir)

/-- The calls of the driver, one outcome for each. -/
def run (dir : Dir) (drv : Driver) : List DrvReturn → Malstream → Option Malstream
  | [], _ => none
  | o :: os, s => (s.drive dir drv o).bind fun (s, more) => if more then run dir drv os s else some s

/-- The `while` of a thread. -/
def loop (dir : Dir) (drv : Driver) (os : List DrvReturn) (s : Malstream) : Option Malstream :=
  match s.top dir with
  | (s, more) => if more then s.run dir drv os else some s

/-- `vsf_malstream_read_thread` and `vsf_malstream_write_thread`. -/
def thread (dir : Dir) (drv : Driver) (evt : Evt) (os : List DrvReturn) (s : Malstream) : Option Malstream :=
  match s.state with
  | .begin =>
    let s := { s with opBlockSize := drv.blocksize }
    if s.opBlockSize.toNat ≠ s.io.s.multibuf.size then some { s with result := some (-11) }
    else { s with offset := 0 }.loop dir drv os
  | .wait =>
    if evt ≠ Evt.user then some s
    else { s with own := { s.own with onInout := false } }.loop dir drv os
  | .drv =>
    -- a suspended driver returns at once when the event is not its own
    if s.malState ∧ evt ≠ drv.event then some s else s.run dir drv os

/-- `vsf_malstream_read_thread`. -/
def readThread : Driver → Evt → List DrvReturn → Malstream → Option Malstream := thread .read

/-- `vsf_malstream_write_thread`. -/
def writeThread : Driver → Evt → List DrvReturn → Malstream → Option Malstream := thread .write

/-- `vsfsm_pt_evt_handler`. -/
def evtHandler (dir : Dir) (drv : Driver) (evt : Evt) (os : List DrvReturn) (s : Malstream) : Option Malstream :=
  if evt = Evt.enter ∨ evt = Evt.exit then some s
  else if evt = Evt.init then { s with state := .begin }.thread dir drv evt os
  else s.thread dir drv evt os

/-- `vsf_malstream_read` and `vsf_malstream_write`, up to `vsfsm_pt_init`. -/
def transfer (addr : UInt64) (size : UInt32) (s : Malstream) : Malstream :=
  { s with addr := addr, size := size, own := ⟨true, false⟩ }

/-! ### The runs -/

/-- What may happen next. -/
inductive Act where
  | peer (op : PeerOp)
  /-- The hardware is done. -/
  | report
  /-- An event from elsewhere, one of an earlier transfer too. -/
  | post (evt : Evt)
  | deliver (os : List DrvReturn)

inductive Step (dir : Dir) (drv : Driver) : Malstream → Act → Malstream → Prop
  | peer {s s' : Malstream} (op : PeerOp) (hcall : s.peerCall dir op = some s') : Step dir drv s (.peer op) s'
  | report {s : Malstream} (hhw : s.hw = true) :
      Step dir drv s .report { s with hw := false, queue := s.queue ++ [drv.event] }
  | post {s : Malstream} (evt : Evt) (hevt : evt ≠ drv.event ∧ evt ≠ Evt.init) :
      Step dir drv s (.post evt) { s with queue := s.queue ++ [evt] }
  | deliver {s s' : Malstream} {evt : Evt} {q : List Evt} (os : List DrvReturn) (hq : s.queue = evt :: q)
      (hhandle : { s with queue := q }.evtHandler dir drv evt os = some s') : Step dir drv s (.deliver os) s'

/-- Before the transfer; the driver's blocks are the buffers, and make the range. -/
structure Fresh (dir : Dir) (drv : Driver) (size : UInt32) (s : Malstream) : Prop where
  stream : s.io.s.Inv
  clean : dir.clean s.io.s
  blocksize_eq : drv.blocksize.toNat = s.io.s.multibuf.size
  size_dvd : drv.blocksize.toNat ∣ size.toNat
  no_init : Evt.init ∉ s.queue
  result_none : s.result = none
  base_eq : s.base = s.io.s.bytes
  io_eq : s.io.written = s.base ∧ s.io.taken = []
  no_history : s.finished = 0 ∧ s.failed = false ∧ s.log = [] ∧ s.wild = false

/-- A transfer, from the first call of its thread on. -/
def system (dir : Dir) (drv : Driver) : System Malstream Act where
  start s := ∃ s₀ addr size os, Fresh dir drv size s₀ ∧
    (s₀.transfer addr size).evtHandler dir drv Evt.init os = some s
  step := Step dir drv

/-! ### What a transfer owes -/

/-- The blocks of the log are what went through the stream. -/
def Moved (dir : Dir) (drv : Driver) (s : Malstream) : Prop :=
  match dir with
  | .read => s.io.written = s.base ++ s.log.flatMap Prod.snd ∧
    ∀ b ∈ s.log, b.2 = (List.range drv.blocksize.toNat).map (drv.block b.1)
  | .write => s.io.taken = s.log.flatMap Prod.snd ∧ ∀ b ∈ s.log, b.2.length = drv.blocksize.toNat

/-- The buffer in a driver's hands: free to read into, or full, of the next bytes. -/
def Whole (dir : Dir) (drv : Driver) (s : Malstream) : Prop :=
  ∃ b, dir.buffer s.io.s.multibuf = some b ∧ (dir = .write → drv.blocksize.toNat ≤ s.io.s.bytes.length ∧
    s.io.s.peekAt b drv.blocksize.toNat = s.io.s.bytes.take drv.blocksize.toNat)

/-- What a transfer owes: the blocks in order, once each, unchanged, and one report of the end, short just
when the driver failed; until then it waits for something. -/
structure Correct (dir : Dir) (drv : Driver) (s : Malstream) : Prop where
  in_order : s.log.map Prod.fst =
    (List.range s.log.length).map fun k => s.addr + UInt64.ofNat (k * drv.blocksize.toNat)
  offset_eq : s.offset.toNat = s.log.length * drv.blocksize.toNat
  inside : s.offset ≤ s.size
  kept : s.io.written = s.io.taken ++ s.io.s.bytes
  moved : s.Moved dir drv
  whole : s.result = none → s.state = .drv → s.Whole dir drv
  tame : s.wild = false
  once : s.finished = if s.result = none then 0 else 1
  done : s.result ≠ none → s.result = some 0 ∧ (s.offset < s.size ↔ s.failed = true)
  waits : s.result = none →
    s.state = .wait ∧ (Evt.user ∈ s.queue ∨ s.own.ready ∧ s.own.onInout ∧
      dir.avail s.io.s < drv.blocksize.toNat) ∨
    s.state = .drv ∧ (s.hw = true ∨ drv.event ∈ s.queue)

/-- The condition: no event after the end gets past the driver. -/
def Meets (drv : Driver) (s : Malstream) (a : Act) : Prop :=
  ∀ os evt q, a = .deliver os → s.queue = evt :: q → s.result ≠ none →
    (evt = Evt.enter ∨ evt = Evt.exit) ∨ s.state = .drv ∧ s.malState = true ∧ evt ≠ drv.event

end Malstream

/-! ### A buffer in, a buffer out -/

namespace Mbufstream

variable {m : Mbufstream}

theorem Inv.held_le (h : Inv m) : m.held ≤ m.multibuf.count * m.multibuf.size := by
  have hcap := h.capacity
  have hw := h.wpos_le
  unfold held
  omega

theorem Inv.getDataLength_held (h : Inv m) : m.getDataLength = m.held := by
  have hr := h.rpos_le
  rw [h.getDataLength_eq]
  unfold ready held
  omega

theorem Inv.getAvailLength_held (h : Inv m) :
    m.getAvailLength = m.multibuf.count * m.multibuf.size - m.held := by
  have hr := h.rpos_le
  have hw := h.wpos_le
  have hcap := h.capacity
  rw [h.getAvailLength_eq]
  unfold room held
  omega

theorem put_eq_fill (hw : m.wpos = 0) (b : ℕ) (d : ℕ → UInt8) (n : ℕ) : m.put b d n = m.fill b (some d) 0 n := by
  simp [put, fill, hw]

theorem peekAt_put (b : ℕ) (d : ℕ → UInt8) (n : ℕ) : (m.put b d n).peekAt b n = (List.range n).map d := by
  refine map_congr_left fun i hi => ?_
  have hlt := List.mem_range.mp hi
  simp [put, RingBuf.copy, hlt]

/-- What is put into the buffer at the head is not seen. -/
theorem Inv.put_keep (h : Inv m) (hw : m.wpos = 0) (hlt : m.multibuf.length < m.multibuf.count) (d : ℕ → UInt8) :
    (m.put m.multibuf.head d m.multibuf.size).Inv ∧
      (m.put m.multibuf.head d m.multibuf.size).bytes = m.bytes := by
  refine ⟨⟨h.size_pos, h.fits, h.tail_lt, h.length_le, h.head_eq, h.rpos_lt, h.wpos_lt, h.empty, h.full⟩, ?_⟩
  have hfill := h.contents_fill (some d) 0 (n := m.multibuf.size) (by omega) hlt
  rw [← put_eq_fill hw] at hfill
  have htake := congrArg (List.take m.held) hfill
  rw [RingBuf.take_contents _ (by omega), take_append_of_le_length (by simp), take_of_length_le (by simp)]
    at htake
  exact htake

theorem Inv.push_put (h : Inv m) (hw : m.wpos = 0) (hlt : m.multibuf.length < m.multibuf.count) (d : ℕ → UInt8) :
    let m' := { m with multibuf := (m.put m.multibuf.head d m.multibuf.size).multibuf.push }
    m'.Inv ∧ m'.bytes = m.bytes ++ (List.range m.multibuf.size).map d ∧ m'.multibuf.size = m.multibuf.size := by
  have hrest := h.fillRest (some d) 0 hlt (n := m.multibuf.size) (by omega)
  rw [← put_eq_fill hw] at hrest
  have heq : ({ m.put m.multibuf.head d m.multibuf.size with
      multibuf := (m.put m.multibuf.head d m.multibuf.size).multibuf.push, wpos := 0 } : Mbufstream) =
      { m with multibuf := (m.put m.multibuf.head d m.multibuf.size).multibuf.push } := by
    simp [put, hw]
  rw [heq] at hrest
  refine ⟨hrest.inv, ?_, hrest.same.size⟩
  rw [hrest.bytes]
  simp [source]

theorem Inv.pop_whole (h : Inv m) (hr : m.rpos = 0) (hpos : 0 < m.multibuf.length) :
    let m' := { m with multibuf := m.multibuf.pop }
    m'.Inv ∧ m.bytes = m.peekAt m.multibuf.tail m.multibuf.size ++ m'.bytes ∧
      m'.multibuf.size = m.multibuf.size := by
  obtain ⟨hi, hb, -, hsame⟩ := h.giveBack hpos (n := m.multibuf.size) (by omega)
  have heq : ({ m with multibuf := m.multibuf.pop, rpos := 0 } : Mbufstream) =
      { m with multibuf := m.multibuf.pop } := by
    rw [← hr]
  rw [heq] at hi hb hsame
  have hheld : m.multibuf.size ≤ m.held := by
    have hone : m.multibuf.size ≤ m.multibuf.length * m.multibuf.size := Nat.le_mul_of_pos_left _ hpos
    unfold held
    omega
  have hfront : m.bytes.take m.multibuf.size = m.peekAt m.multibuf.tail m.multibuf.size := by
    rw [bytes, RingBuf.take_contents _ hheld, h.front (by omega), peekAt, hr]
    simp
  refine ⟨hi, ?_, hsame.size⟩
  rw [hb, ← hfront, take_append_drop]

end Mbufstream

/-! ### The two threads on the stream -/

namespace Dir

/-- The stream is in order, with no buffer half done on the thread's side. -/
structure Sound (dir : Dir) (t : Mbufstream.Trace) : Prop where
  trace : t.Inv
  clean : dir.clean t.s

variable {dir : Dir} {t : Mbufstream.Trace}

/-- What the thread put into the stream or took from it. -/
def side : Dir → Mbufstream.Trace → List UInt8
  | .read, t => t.written
  | .write, t => t.taken

theorem Sound.avail_eq (h : dir.Sound t) : dir.avail t.s = match dir with
    | .read => t.s.multibuf.count * t.s.multibuf.size - t.s.held
    | .write => t.s.held := by
  cases dir with
  | read => exact h.trace.stream.getAvailLength_held
  | write => exact h.trace.stream.getDataLength_held

theorem Sound.buffer (h : dir.Sound t) (havail : t.s.multibuf.size ≤ dir.avail t.s) :
    dir.buffer t.s.multibuf = some (match dir with | .read => t.s.multibuf.head | .write => t.s.multibuf.tail) ∧
      match dir with
      | .read => t.s.multibuf.length < t.s.multibuf.count
      | .write => 0 < t.s.multibuf.length := by
  have hi := h.trace.stream
  rw [h.avail_eq] at havail
  cases dir with
  | read =>
    have hlt : t.s.multibuf.length < t.s.multibuf.count := by
      apply lt_of_le_of_ne hi.length_le
      intro hfull
      have hw := hi.wpos_lt
      have hr := hi.rpos_lt
      simp only [Mbufstream.held, hfull] at havail
      omega
    exact ⟨if_neg (Nat.not_le_of_lt hlt), hlt⟩
  | write =>
    have hlt : 0 < t.s.multibuf.length := by
      apply pos_of_ne_zero
      intro hzero
      have hw := hi.wpos_lt
      simp only [Mbufstream.held, hzero] at havail
      omega
    exact ⟨if_neg (ne_of_gt hlt), hlt⟩

theorem Sound.call (h : dir.Sound t) (n : ℕ) (data : Option (ℕ → UInt8)) :
    ∃ count t', dir.count t.s n data = some count ∧ t.step (dir.op n data) = some t' ∧ dir.Sound t' ∧
      t'.s.multibuf.size = t.s.multibuf.size ∧ dir.avail t'.s = dir.avail t.s + count ∧ dir.side t' = dir.side t := by
  obtain ⟨t', hstep, hinv, hsame⟩ := Mbufstream.Trace.step_inv h.trace (dir.op n data)
  have hi := h.trace.stream
  have hheld := hi.held_le
  cases dir with
  | read =>
    obtain ⟨m', data', hread, -, -, hw, hbytes, -⟩ := Mbufstream.read_spec hi n data
    have hready := Mbufstream.ready_le_held (s := t.s)
    have hout : t'.s = m' ∧ t'.written = t.written := by
      simp only [op, Mbufstream.Trace.step, hread, map_some, Option.some.injEq] at hstep
      rw [← hstep]
      exact ⟨rfl, rfl⟩
    have hlen := congrArg List.length hbytes
    rw [length_drop, Mbufstream.bytes_length, Mbufstream.bytes_length] at hlen
    have hs : Dir.read.Sound t' := ⟨hinv, by show t'.s.wpos = 0; rw [hout.1, hw]; exact h.clean⟩
    refine ⟨min n t.s.ready, t', by simp [count, hread], hstep, hs, hsame.size, ?_, hout.2⟩
    rw [hs.avail_eq, h.avail_eq]
    dsimp only
    rw [hsame.size, hsame.count, hout.1, hlen]
    omega
  | write =>
    obtain ⟨m', hwrite, hfill⟩ := Mbufstream.write_spec hi n data
    have hout : t'.s = m' ∧ t'.taken = t.taken := by
      simp only [op, Mbufstream.Trace.step, hwrite, map_some, Option.some.injEq] at hstep
      rw [← hstep]
      exact ⟨rfl, rfl⟩
    have hlen : m'.held = t.s.held + min n t.s.room := by
      have hb := congrArg List.length hfill.bytes
      rw [length_append, Mbufstream.bytes_length, Mbufstream.bytes_length] at hb
      rw [hb]
      cases data <;> simp [Mbufstream.source, Mbufstream.gap]
    have hs : Dir.write.Sound t' := ⟨hinv, by show t'.s.rpos = 0; rw [hout.1, hfill.rpos]; exact h.clean⟩
    refine ⟨min n t.s.room, t', by simp [count, hwrite], hstep, hs, hsame.size, ?_, hout.2⟩
    rw [hs.avail_eq, h.avail_eq]
    rw [hout.1, hlen]

/-- A driver at work changes nothing the peer sees. -/
theorem Sound.touch (h : dir.Sound t) (havail : t.s.multibuf.size ≤ dir.avail t.s) {b : ℕ}
    (hb : dir.buffer t.s.multibuf = some b) (d : ℕ → UInt8) :
    dir.Sound { t with s := dir.touch t.s b d t.s.multibuf.size } ∧
      (dir.touch t.s b d t.s.multibuf.size).multibuf.size = t.s.multibuf.size ∧
      dir.avail (dir.touch t.s b d t.s.multibuf.size) = dir.avail t.s := by
  obtain ⟨hsome, hroom⟩ := h.buffer havail
  cases dir with
  | read =>
    obtain rfl := some.inj (hb.symm.trans hsome)
    obtain ⟨hi, hbytes⟩ := h.trace.stream.put_keep h.clean hroom d
    have hs : Dir.read.Sound { t with s := t.s.put t.s.multibuf.head d t.s.multibuf.size } :=
      ⟨⟨hi, by rw [hbytes]; exact h.trace.written⟩, h.clean⟩
    have hlen := congrArg List.length hbytes
    rw [Mbufstream.bytes_length, Mbufstream.bytes_length] at hlen
    refine ⟨hs, rfl, ?_⟩
    have h1 := hs.avail_eq
    rw [hlen] at h1
    exact h1.trans h.avail_eq.symm
  | write => exact ⟨h, rfl, rfl⟩

theorem Sound.hand (h : dir.Sound t) {n : ℕ} (hn : t.s.multibuf.size = n) (havail : n ≤ dir.avail t.s) {b : ℕ}
    (hb : dir.buffer t.s.multibuf = some b) (d : ℕ → UInt8) :
    let m := dir.touch t.s b d n
    let block := m.peekAt b n
    let t' := dir.record t { m with multibuf := dir.hand m.multibuf } block
    dir.Sound t' ∧ t'.s.multibuf.size = n ∧ dir.side t' = dir.side t ++ block ∧
      (dir = .read → block = (List.range n).map d) ∧ block.length = n := by
  subst hn
  obtain ⟨hsome, hroom⟩ := h.buffer havail
  obtain rfl := some.inj (hb.symm.trans hsome)
  have hwritten := h.trace.written
  refine ⟨?_, ?_, ?_, ?_, by simp [Mbufstream.peekAt]⟩
  · cases dir with
    | read =>
      obtain ⟨hi, hbytes, -⟩ := h.trace.stream.push_put h.clean hroom d
      refine ⟨⟨hi, ?_⟩, h.clean⟩
      show t.written ++ _ = t.taken ++ _
      rw [hwritten, append_assoc]
      congr 1
      exact (congrArg _ (Mbufstream.peekAt_put _ _ _)).trans hbytes.symm
    | write =>
      obtain ⟨hi, hbytes, -⟩ := h.trace.stream.pop_whole h.clean hroom
      refine ⟨⟨hi, ?_⟩, h.clean⟩
      show t.written = t.taken ++ _ ++ _
      rw [hwritten, hbytes, append_assoc]
      rfl
  · cases dir with
    | read => exact (h.trace.stream.push_put h.clean hroom d).2.2
    | write => exact (h.trace.stream.pop_whole h.clean hroom).2.2
  · cases dir <;> rfl
  · rintro rfl
    exact Mbufstream.peekAt_put _ _ _

/-- The buffer of a driver that writes has the oldest bytes in it. -/
theorem Sound.whole (h : Dir.write.Sound t) (havail : t.s.multibuf.size ≤ t.s.getDataLength) {b : ℕ}
    (hb : t.s.multibuf.getPayload = some b) :
    t.s.multibuf.size ≤ t.s.bytes.length ∧
      t.s.peekAt b t.s.multibuf.size = t.s.bytes.take t.s.multibuf.size := by
  obtain ⟨hsome, hroom⟩ := h.buffer havail
  obtain rfl := some.inj (hb.symm.trans hsome)
  obtain ⟨-, hbytes, -⟩ := h.trace.stream.pop_whole h.clean hroom
  have hlen : (t.s.peekAt t.s.multibuf.tail t.s.multibuf.size).length = t.s.multibuf.size := by
    simp [Mbufstream.peekAt]
  rw [hbytes]
  refine ⟨by rw [length_append, hlen]; omega, ?_⟩
  rw [take_append_of_le_length (by omega), take_of_length_le (by omega)]

end Dir

namespace Malstream

variable {dir : Dir} {drv : Driver} {s : Malstream}

/-! ### What every step keeps -/

/-- What holds in every state. -/
structure Base (dir : Dir) (drv : Driver) (s : Malstream) : Prop where
  sound : dir.Sound s.io
  size_eq : s.io.s.multibuf.size = drv.blocksize.toNat
  size_dvd : drv.blocksize.toNat ∣ s.size.toNat
  block_eq : s.opBlockSize = drv.blocksize
  in_order : s.log.map Prod.fst =
    (List.range s.log.length).map fun k => s.addr + UInt64.ofNat (k * drv.blocksize.toNat)
  offset_eq : s.offset.toNat = s.log.length * drv.blocksize.toNat
  inside : s.offset.toNat ≤ s.size.toNat
  moved : s.Moved dir drv
  tame : s.wild = false
  no_init : Evt.init ∉ s.queue

/-- The thread is in its loop. -/
structure Live (dir : Dir) (drv : Driver) (s : Malstream) : Prop extends Base dir drv s where
  result_none : s.result = none
  finished_zero : s.finished = 0
  failed_false : s.failed = false
  own_ready : s.own.ready = true

/-- The thread is about to call the driver, or has. -/
structure Going (dir : Dir) (drv : Driver) (s : Malstream) : Prop extends Live dir drv s where
  state_drv : s.state = .drv
  more : s.offset.toNat < s.size.toNat
  avail : drv.blocksize.toNat ≤ dir.avail s.io.s

inductive Inv (dir : Dir) (drv : Driver) (s : Malstream) : Prop
  | waits (h : Live dir drv s) (hstate : s.state = .wait)
      (hwake : Evt.user ∈ s.queue ∨ s.own.onInout = true ∧ dir.avail s.io.s < drv.blocksize.toNat)
  | drives (h : Going dir drv s) (hmal : s.malState = true) (hwake : s.hw = true ∨ drv.event ∈ s.queue)
  | ended (h : Base dir drv s) (hres : s.result = some 0) (hfin : s.finished = 1)
      (hfail : s.offset.toNat < s.size.toNat ↔ s.failed = true)

/-- The loop, up to the next call of the driver. -/
theorem Live.top (h : Live dir drv s) :
    if (s.top dir).2 then Going dir drv (s.top dir).1 else Inv dir drv (s.top dir).1 := by
  unfold Malstream.top
  by_cases hmore : s.offset < s.size
  · rw [if_pos hmore]
    by_cases havail : dir.avail s.io.s < s.opBlockSize.toNat
    · rw [if_pos havail, if_neg (by simp)]
      rw [h.block_eq] at havail
      exact .waits { h with } rfl (.inr ⟨rfl, havail⟩)
    · rw [if_neg havail, if_pos rfl]
      rw [h.block_eq] at havail
      exact { h with
        state_drv := rfl
        more := UInt32.lt_iff_toNat_lt.mp hmore
        avail := Nat.le_of_not_lt havail }
  · rw [if_neg hmore, if_neg (by simp)]
    have hend : ¬ s.offset.toNat < s.size.toNat := fun hlt => hmore (UInt32.lt_iff_toNat_lt.mpr hlt)
    refine .ended { h.toBase with } rfl (by simp [finish, h.finished_zero]) ?_
    simp [finish, hend, h.failed_false]

/-- What a call of the peer leaves. -/
structure Called (dir : Dir) (s s' : Malstream) : Prop where
  sound : dir.Sound s'.io
  size_eq : s'.io.s.multibuf.size = s.io.s.multibuf.size
  side_eq : dir.side s'.io = dir.side s.io
  avail : dir.avail s.io.s ≤ dir.avail s'.io.s
  rest : ∃ io peer queue, s' = { s with io := io, peer := peer, queue := s.queue ++ queue } ∧
    (∀ evt ∈ queue, evt = Evt.user) ∧
    (s.own = ⟨true, true⟩ → dir.avail s.io.s < dir.avail s'.io.s → Evt.user ∈ queue)

variable {s' : Malstream} {os : List DrvReturn} {evt : Evt} {q : List Evt}

theorem Called.trans {s'' : Malstream} (h : Called dir s s') (h' : Called dir s' s'') : Called dir s s'' := by
  obtain ⟨io, peer, queue, rfl, hu, hw⟩ := h.rest
  obtain ⟨io', peer', queue', rfl, hu', hw'⟩ := h'.rest
  refine ⟨h'.sound, h'.size_eq.trans h.size_eq, h'.side_eq.trans h.side_eq, h.avail.trans h'.avail,
    io', peer', queue ++ queue', by simp, ?_, ?_⟩
  · intro evt hevt
    rcases mem_append.mp hevt with hm | hm
    · exact hu evt hm
    · exact hu' evt hm
  · intro hown hlt
    by_cases hfirst : dir.avail s.io.s < dir.avail io.s
    · exact mem_append_left _ (hw hown hfirst)
    · exact mem_append_right _ (hw' hown (lt_of_le_of_lt (Nat.le_of_not_lt hfirst) hlt))

theorem Called.refl (h : dir.Sound s.io) : Called dir s s :=
  ⟨h, rfl, rfl, le_refl _, s.io, s.peer, [], by simp, by simp, fun _ hlt => absurd hlt (lt_irrefl _)⟩

theorem called (h : dir.Sound s.io) (op : PeerOp) : ∃ s', s.peerCall dir op = some s' ∧ Called dir s s' := by
  cases op with
  | set e => exact ⟨_, rfl, { Called.refl h with rest := ⟨s.io, e, [], by simp, by simp, fun _ hlt =>
      absurd hlt (lt_irrefl _)⟩ }⟩
  | call n data =>
    obtain ⟨count, io, hcount, hstep, hsound, hsize, havail, hside⟩ := h.call n data
    refine ⟨_, by rw [peerCall, hcount, bind_some, hstep, map_some], hsound, hsize, hside, ?_,
      io, s.peer, _, rfl, ?_, ?_⟩
    · show dir.avail s.io.s ≤ dir.avail io.s
      omega
    · intro evt hevt
      by_cases hwake : s.own.ready ∧ s.own.onInout ∧ count ≠ 0
      · rw [if_pos hwake] at hevt
        exact mem_singleton.mp hevt
      · rw [if_neg hwake] at hevt
        cases hevt
    · intro hown hlt
      have hlt : dir.avail s.io.s < dir.avail io.s := hlt
      rw [if_pos ⟨by simp [hown], by simp [hown], by omega⟩]
      exact mem_singleton.mpr rfl

theorem called_all : ∀ (ops : List PeerOp) (s : Malstream), dir.Sound s.io →
    ∃ s', ops.foldlM (peerCall dir) s = some s' ∧ Called dir s s'
  | [], s, h => ⟨s, rfl, .refl h⟩
  | op :: ops, s, h => by
    obtain ⟨u, hu, hcall⟩ := called h op
    obtain ⟨s', hs', hcalls⟩ := called_all ops u hcall.sound
    refine ⟨s', ?_, hcall.trans hcalls⟩
    rw [foldlM_cons, hu]
    exact hs'

theorem Moved.congr (h : s.Moved dir drv) (hlog : s'.log = s.log) (hbase : s'.base = s.base)
    (hside : dir.side s'.io = dir.side s.io) : s'.Moved dir drv := by
  cases dir with
  | read =>
    refine ⟨hside.trans ?_, by rw [hlog]; exact h.2⟩
    rw [hlog, hbase]
    exact h.1
  | write =>
    refine ⟨hside.trans ?_, by rw [hlog]; exact h.2⟩
    rw [hlog]
    exact h.1

theorem Base.called (h : Base dir drv s) (hcall : Called dir s s') : Base dir drv s' := by
  have hsound := hcall.sound
  have hsize := hcall.size_eq.trans h.size_eq
  have hside := hcall.side_eq
  obtain ⟨io, peer, queue, rfl, hu, -⟩ := hcall.rest
  refine { h with
    sound := hsound
    size_eq := hsize
    moved := h.moved.congr rfl rfl hside
    no_init := ?_ }
  intro hinit
  rcases mem_append.mp hinit with hm | hm
  · exact h.no_init hm
  · exact absurd (hu _ hm) (by decide)

theorem Live.called (h : Live dir drv s) (hcall : Called dir s s') : Live dir drv s' := by
  have hbase := h.toBase.called hcall
  obtain ⟨io, peer, queue, rfl, -, -⟩ := hcall.rest
  exact { hbase with
    result_none := h.result_none
    finished_zero := h.finished_zero
    failed_false := h.failed_false
    own_ready := h.own_ready }

theorem Going.called (h : Going dir drv s) (hcall : Called dir s s') : Going dir drv s' := by
  have hlive := h.toLive.called hcall
  have havail := h.avail.trans hcall.avail
  obtain ⟨io, peer, queue, rfl, -, -⟩ := hcall.rest
  exact { hlive with state_drv := h.state_drv, more := h.more, avail := havail }

theorem Going.next_inside (h : Going dir drv s) :
    (s.offset + s.opBlockSize).toNat = (s.log.length + 1) * drv.blocksize.toNat ∧
      (s.log.length + 1) * drv.blocksize.toNat ≤ s.size.toNat := by
  obtain ⟨k, hk⟩ := h.size_dvd
  have hmore := h.more
  rw [h.offset_eq, hk, Nat.mul_comm] at hmore
  have hlt : s.log.length < k := Nat.lt_of_mul_lt_mul_left hmore
  have hle : (s.log.length + 1) * drv.blocksize.toNat ≤ s.size.toNat := by
    rw [hk, Nat.mul_comm]
    exact Nat.mul_le_mul_left _ hlt
  refine ⟨?_, hle⟩
  have hsize := s.size.toNat_lt
  have hsum : s.offset.toNat + drv.blocksize.toNat = (s.log.length + 1) * drv.blocksize.toNat := by
    rw [h.offset_eq, Nat.succ_mul]
  rw [UInt32.toNat_add, h.block_eq, hsum, Nat.mod_eq_of_lt (by omega)]

theorem Live.fix (h : Live dir drv s) : Live dir drv (s.fix dir) := by
  cases dir with
  | read => exact { h with }
  | write => exact { h with }

theorem Going.complete (h : Going dir drv s) {b : ℕ} (hb : dir.buffer s.io.s.multibuf = some b) :
    Live dir drv (s.complete dir drv b) := by
  have hn : s.io.s.multibuf.size = s.opBlockSize.toNat := by rw [h.block_eq, h.size_eq]
  have havail := h.avail
  rw [← h.block_eq] at havail
  obtain ⟨hsound, hsize, hside, hread, hlen⟩ := h.sound.hand hn havail hb (drv.block (s.addr + s.offset.toUInt64))
  obtain ⟨hoff, hle⟩ := h.next_inside
  have haddr : s.addr + s.offset.toUInt64 = s.addr + UInt64.ofNat (s.log.length * drv.blocksize.toNat) := by
    rw [← h.offset_eq]
    simp
  have hmoved := h.moved
  set m := dir.touch s.io.s b (drv.block (s.addr + s.offset.toUInt64)) s.opBlockSize.toNat
  set block := m.peekAt b s.opBlockSize.toNat
  have hlive : Live dir drv { s with
      io := dir.record s.io { m with multibuf := dir.hand m.multibuf } block
      log := s.log ++ [(s.addr + s.offset.toUInt64, block)]
      offset := s.offset + s.opBlockSize } :=
    { h.toLive with
      sound := hsound
      size_eq := hsize.trans (congrArg _ h.block_eq)
      in_order := by simp [range_succ, h.in_order, haddr]
      offset_eq := by simpa using hoff
      inside := by
        show (s.offset + s.opBlockSize).toNat ≤ s.size.toNat
        omega
      moved := by
        rw [h.block_eq] at hread hlen
        cases dir with
        | read =>
          refine ⟨?_, fun x hx => ?_⟩
          · show s.io.written ++ block = _
            rw [hmoved.1, flatMap_append, append_assoc]
            simp
          · rcases mem_append.mp hx with hm | hm
            · exact hmoved.2 x hm
            · rw [mem_singleton.mp hm]
              exact hread rfl
        | write =>
          refine ⟨?_, fun x hx => ?_⟩
          · show s.io.taken ++ block = _
            rw [hmoved.1, flatMap_append]
            simp
          · rcases mem_append.mp hx with hm | hm
            · exact hmoved.2 x hm
            · rw [mem_singleton.mp hm]
              exact hlen }
  unfold Malstream.complete
  by_cases hlast : s.offset + s.opBlockSize ≥ s.size
  · rw [if_pos hlast]
    exact hlive.fix
  · rw [if_neg hlast]
    exact hlive

/-! ### Every step keeps it -/

theorem Going.drive (h : Going dir drv s) (o : DrvReturn) : ∃ s' more, s.drive dir drv o = some (s', more) ∧
    if more then Going dir drv s' else Inv dir drv s' := by
  have havail := h.avail
  rw [← h.size_eq] at havail
  obtain ⟨b, hb⟩ : ∃ b, dir.buffer s.io.s.multibuf = some b := ⟨_, (h.sound.buffer havail).1⟩
  unfold Malstream.drive
  rw [hb]
  cases o with
  | suspend d =>
    obtain ⟨h1, h2, h3⟩ := h.sound.touch havail hb d
    have hn : s.opBlockSize.toNat = s.io.s.multibuf.size := by rw [h.block_eq, h.size_eq]
    refine ⟨_, false, rfl, .drives ?_ rfl (.inl rfl)⟩
    rw [hn]
    exact { h with
      sound := h1
      size_eq := h2.trans h.size_eq
      moved := h.moved.congr rfl rfl (by cases dir <;> rfl)
      avail := h.avail.trans_eq h3.symm }
  | fail =>
    refine ⟨_, false, rfl, .ended { h.toBase with } rfl (by simp [finish, h.finished_zero]) ?_⟩
    simp [finish, h.more]
  | ok ops =>
    have hlive := h.complete hb
    obtain ⟨s', hs', hcall⟩ := @called_all dir
      (if (s.complete dir drv b).peer.ready ∧ (s.complete dir drv b).peer.onInout then ops else []) _ hlive.sound
    refine ⟨(s'.top dir).1, (s'.top dir).2, ?_, (hlive.called hcall).top⟩
    dsimp only
    rw [hs', map_some]

/-- The calls of the driver in one call of the thread, by induction on their results. -/
theorem Going.run : ∀ {os : List DrvReturn} {s s' : Malstream}, Going dir drv s → s.run dir drv os = some s' →
    Inv dir drv s'
  | [], _, _, _, hrun => by cases hrun
  | o :: os, s, s', h, hrun => by
    obtain ⟨u, more, hdrive, hu⟩ := h.drive o
    rw [Malstream.run, hdrive, bind_some] at hrun
    cases more with
    | true => exact Going.run hu hrun
    | false => exact (some.inj hrun) ▸ hu

theorem Live.loop (h : Live dir drv s) (hrun : s.loop dir drv os = some s') : Inv dir drv s' := by
  have htop := h.top
  unfold Malstream.loop at hrun
  generalize s.top dir = r at htop hrun
  obtain ⟨u, more⟩ := r
  cases more with
  | true => exact Going.run htop hrun
  | false => exact (some.inj hrun) ▸ htop

theorem thread_wait (hs : s.state = .wait) : s.thread dir drv evt os = if evt ≠ Evt.user then some s
    else { s with own := { s.own with onInout := false } }.loop dir drv os := by
  unfold thread
  rw [hs]

theorem thread_drv (hs : s.state = .drv) : s.thread dir drv evt os =
    if s.malState ∧ evt ≠ drv.event then some s else s.run dir drv os := by
  unfold thread
  rw [hs]

theorem Live.wake (h : Live dir drv s) (hq : s.queue = evt :: q) (hstate : s.state = .wait)
    (hwake : Evt.user ∈ s.queue ∨ s.own.onInout = true ∧ dir.avail s.io.s < drv.blocksize.toNat)
    (hrun : { s with queue := q }.thread dir drv evt os = some s') : Inv dir drv s' := by
  have hno : Evt.init ∉ q := fun hm => h.no_init (by rw [hq]; exact mem_cons_of_mem _ hm)
  rw [thread_wait (s := { s with queue := q }) hstate] at hrun
  by_cases hevt : evt = Evt.user
  · rw [if_neg (not_not.mpr hevt)] at hrun
    have hlive : Live dir drv { s with queue := q, own := { s.own with onInout := false } } :=
      { h with no_init := hno }
    exact hlive.loop hrun
  · rw [if_pos hevt] at hrun
    obtain rfl := some.inj hrun
    refine .waits { h with no_init := hno } hstate (hwake.imp_left fun hm => ?_)
    rw [hq] at hm
    exact mem_of_ne_of_mem (Ne.symm hevt) hm

theorem Going.wake (h : Going dir drv s)
    (hq : s.queue = evt :: q) (hmal : s.malState = true) (hwake : s.hw = true ∨ drv.event ∈ s.queue)
    (hrun : { s with queue := q }.thread dir drv evt os = some s') : Inv dir drv s' := by
  have hno : Evt.init ∉ q := fun hm => h.no_init (by rw [hq]; exact mem_cons_of_mem _ hm)
  have hgoing : Going dir drv { s with queue := q } := { h with no_init := hno }
  rw [thread_drv (s := { s with queue := q }) h.state_drv] at hrun
  by_cases hevt : evt = drv.event
  · rw [if_neg (by simp [hevt])] at hrun
    exact hgoing.run hrun
  · rw [if_pos ⟨hmal, hevt⟩] at hrun
    obtain rfl := some.inj hrun
    refine .drives hgoing hmal (hwake.imp_right fun hm => ?_)
    rw [hq] at hm
    exact mem_of_ne_of_mem (Ne.symm hevt) hm

theorem Base.pop (h : Base dir drv s) (hq : s.queue = evt :: q) : Base dir drv { s with queue := q } :=
  { h with no_init := fun hm => h.no_init (by rw [hq]; exact mem_cons_of_mem _ hm) }

theorem Inv.toBase (h : Inv dir drv s) : Base dir drv s := by
  cases h with
  | waits h => exact h.toBase
  | drives h => exact h.toBase
  | ended h => exact h

theorem Inv.queued (h : Inv dir drv s) {evt : Evt} (hevt : evt ≠ Evt.init) {hw : Bool}
    (hhw : s.hw = true → hw = true ∨ evt = drv.event) :
    Inv dir drv { s with hw := hw, queue := s.queue ++ [evt] } := by
  have hno : Evt.init ∉ s.queue ++ [evt] := by
    simp [h.toBase.no_init, Ne.symm hevt]
  cases h with
  | waits h hstate hwake => exact .waits { h with no_init := hno } hstate (hwake.imp_left fun hm => by simp [hm])
  | drives h hmal hwake =>
    refine .drives { h with no_init := hno } hmal ?_
    rcases hwake with hh | hm
    · rcases hhw hh with h1 | h1
      · exact .inl h1
      · exact .inr (by simp [h1])
    · exact .inr (by simp [hm])
  | ended h hres hfin hfail => exact .ended { h with no_init := hno } hres hfin hfail

theorem Inv.peer (h : Inv dir drv s) {op : PeerOp} {s' : Malstream} (hop : s.peerCall dir op = some s') :
    Inv dir drv s' := by
  obtain ⟨u, hu, hcall⟩ := called h.toBase.sound op
  obtain rfl := some.inj (hu.symm.trans hop)
  cases h with
  | waits h hstate hwake =>
    have hlive := h.called hcall
    obtain ⟨io, peer, queue, rfl, -, hpost⟩ := hcall.rest
    refine .waits hlive hstate ?_
    rcases hwake with hm | ⟨hon, hless⟩
    · exact .inl (mem_append_left _ hm)
    · by_cases hmore : dir.avail s.io.s < dir.avail io.s
      · refine .inl (mem_append_right _ (hpost ?_ hmore))
        have hready := h.own_ready
        cases hown : s.own
        simp_all
      · exact .inr ⟨hon, lt_of_le_of_lt (Nat.le_of_not_lt hmore) hless⟩
  | drives h hmal hwake =>
    have hgoing := h.called hcall
    obtain ⟨io, peer, queue, rfl, -, -⟩ := hcall.rest
    exact .drives hgoing hmal (hwake.imp_right fun hm => mem_append_left _ hm)
  | ended h hres hfin hfail =>
    have hbase := h.called hcall
    obtain ⟨io, peer, queue, rfl, -, -⟩ := hcall.rest
    exact .ended hbase hres hfin hfail

theorem Inv.ignored (h : Inv dir drv s) {evt : Evt} {q : List Evt} (hq : s.queue = evt :: q) (huser : evt ≠ Evt.user)
    (hevt : evt ≠ drv.event) : Inv dir drv { s with queue := q } := by
  have hbase := h.toBase.pop hq
  cases h with
  | waits h hstate hwake =>
    refine .waits { h with no_init := hbase.no_init } hstate (hwake.imp_left fun hm => ?_)
    rw [hq] at hm
    exact mem_of_ne_of_mem (Ne.symm huser) hm
  | drives h hmal hwake =>
    refine .drives { h with no_init := hbase.no_init } hmal (hwake.imp_right fun hm => ?_)
    rw [hq] at hm
    exact mem_of_ne_of_mem (Ne.symm hevt) hm
  | ended h hres hfin hfail => exact .ended hbase hres hfin hfail

theorem Inv.deliver (h : Inv dir drv s) {evt : Evt} {q : List Evt} {os : List DrvReturn} {s' : Malstream}
    (hq : s.queue = evt :: q) (hm : Meets drv s (.deliver os))
    (hrun : { s with queue := q }.evtHandler dir drv evt os = some s') : Inv dir drv s' := by
  have hinit : evt ≠ Evt.init := by
    rintro rfl
    exact h.toBase.no_init (by rw [hq]; exact mem_cons_self)
  unfold evtHandler at hrun
  by_cases henter : evt = Evt.enter ∨ evt = Evt.exit
  · rw [if_pos henter] at hrun
    obtain rfl := some.inj hrun
    rcases henter with rfl | rfl
    · exact h.ignored hq (by decide) drv.event_own.2.2.1.symm
    · exact h.ignored hq (by decide) drv.event_own.2.2.2.symm
  rw [if_neg henter, if_neg hinit] at hrun
  cases h with
  | waits h hstate hwake => exact h.wake hq hstate hwake hrun
  | drives h hmal hwake => exact h.wake hq hmal hwake hrun
  | ended h hres hfin hfail =>
    obtain ⟨hstate, hmal, hevt⟩ := (hm os evt q rfl hq (by simp [hres])).resolve_left henter
    rw [thread_drv (s := { s with queue := q }) hstate, if_pos ⟨hmal, hevt⟩] at hrun
    obtain rfl := some.inj hrun
    exact .ended (h.pop hq) hres hfin hfail

theorem Inv.step {a : Act} (h : Inv dir drv s) (hm : Meets drv s a) (hst : Step dir drv s a s') :
    Inv dir drv s' := by
  cases hst with
  | peer op hcall => exact h.peer hcall
  | report hhw => exact h.queued drv.event_own.2.1 fun _ => .inr rfl
  | post evt hevt => exact h.queued hevt.2 .inl
  | deliver os hq hhandle => exact h.deliver hq hm hhandle

theorem Fresh.inv {addr : UInt64} {size : UInt32}
    (h : Fresh dir drv size s) (hrun : (s.transfer addr size).evtHandler dir drv Evt.init os = some s') :
    Inv dir drv s' := by
  obtain ⟨h1, h2, h3, h4⟩ := h.no_history
  have hsound : dir.Sound s.io := ⟨⟨h.stream, by rw [h.io_eq.1, h.io_eq.2, h.base_eq]; rfl⟩, h.clean⟩
  have hlive : Live dir drv { s.transfer addr size with
      state := .begin, opBlockSize := drv.blocksize, offset := 0 } :=
    { sound := hsound
      size_eq := h.blocksize_eq.symm
      size_dvd := h.size_dvd
      block_eq := rfl
      in_order := by simp [transfer, h3]
      offset_eq := by simp [transfer, h3]
      inside := Nat.zero_le _
      moved := by
        cases dir with
        | read => exact ⟨by simp [transfer, h3, h.io_eq.1], by simp [transfer, h3]⟩
        | write => exact ⟨by simp [transfer, h3, h.io_eq.2], by simp [transfer, h3]⟩
      tame := h4
      no_init := h.no_init
      result_none := h.result_none
      finished_zero := h1
      failed_false := h2
      own_ready := rfl }
  rw [evtHandler, if_neg (by decide), if_pos rfl] at hrun
  unfold thread at hrun
  rw [if_neg (not_not.mpr (show drv.blocksize.toNat = (s.transfer addr size).io.s.multibuf.size from
    h.blocksize_eq))] at hrun
  exact hlive.loop hrun

/-! ### The claim -/

theorem Going.whole (h : Going dir drv s) : s.Whole dir drv := by
  have havail := h.avail
  rw [← h.size_eq] at havail
  obtain ⟨hb, -⟩ := h.sound.buffer havail
  refine ⟨_, hb, ?_⟩
  rintro rfl
  rw [← h.size_eq]
  exact h.sound.whole havail hb

theorem Inv.correct (h : Inv dir drv s) : Correct dir drv s where
  in_order := h.toBase.in_order
  offset_eq := h.toBase.offset_eq
  inside := UInt32.le_iff_toNat_le.mpr h.toBase.inside
  kept := h.toBase.sound.trace.written
  moved := h.toBase.moved
  tame := h.toBase.tame
  whole := by
    intro hres hstate
    cases h with
    | waits h hwait => simp [hwait] at hstate
    | drives h => exact h.whole
    | ended h hend => simp [hend] at hres
  once := by
    cases h with
    | waits h => rw [if_pos h.result_none, h.finished_zero]
    | drives h => rw [if_pos h.result_none, h.finished_zero]
    | ended h hend hfin => rw [if_neg (by simp [hend]), hfin]
  done := by
    intro hres
    cases h with
    | waits h => exact absurd h.result_none hres
    | drives h => exact absurd h.result_none hres
    | ended h hend hfin hfail => exact ⟨hend, UInt32.lt_iff_toNat_lt.trans hfail⟩
  waits := by
    intro hres
    cases h with
    | waits h hstate hwake => exact .inl ⟨hstate, hwake.imp_right fun ⟨hon, hlt⟩ => ⟨h.own_ready, hon, hlt⟩⟩
    | drives h hmal hwake => exact .inr ⟨h.state_drv, hwake⟩
    | ended h hend => simp [hend] at hres

/-- **The stream of a storage**: the blocks go through once each, in order and unchanged, and the end is
reported once, as long as no later event gets past the driver. -/
theorem blocks_once (h : ((system dir drv).restrict (Meets drv)).Reach s) : Correct dir drv s := by
  refine Inv.correct (h.invariant (P := Inv dir drv) ?_ fun s a s' _ hi hst => hi.step hst.1 hst.2)
  rintro s ⟨s₀, addr, size, os, hfresh, hrun⟩
  exact hfresh.inv hrun

/-- A device of zeros, in blocks of two bytes. -/
def twoBytes : Driver := ⟨2, 0x20, fun _ => 0, by decide⟩

/-- One buffer of two bytes, before a transfer. -/
def oneBuffer : Malstream where
  addr := 0
  size := 0
  offset := 0
  opBlockSize := 0
  io := ⟨⟨⟨2, fun _ _ => 0, 1, 0, 0, 0⟩, 0, 0⟩, [], []⟩
  own := ⟨false, false⟩
  peer := ⟨true, false⟩
  state := .begin
  malState := false
  hw := false
  queue := []
  result := none
  finished := 0
  failed := false
  log := []
  base := []
  wild := false

theorem oneBuffer_fresh (dir : Dir) : Fresh dir twoBytes 4 oneBuffer where
  stream := ⟨by decide, by decide, by decide, by decide, by decide, by decide, by decide, by decide, by decide⟩
  clean := by cases dir <;> rfl
  blocksize_eq := rfl
  size_dvd := by decide
  no_init := by decide
  result_none := rfl
  base_eq := rfl
  io_eq := ⟨rfl, rfl⟩
  no_history := ⟨rfl, rfl, rfl, rfl⟩

/-- Two blocks through one buffer; the driver does each at once. -/
theorem blocks_once_twoBlocks : ∃ s, s.finished = 1 ∧ s.log.map Prod.fst = [0, 2] ∧ Correct .read twoBytes s := by
  have hstart : ((system .read twoBytes).restrict (Meets twoBytes)).Reach _ :=
    .start ⟨oneBuffer, 0, 4, [.ok []], oneBuffer_fresh .read, rfl⟩
  have hread := hstart.step (show Meets twoBytes _ (.peer (.call 2 none)) ∧ Step .read twoBytes _ _ _ from
    ⟨fun _ _ _ ha => (nomatch ha), .peer _ rfl⟩)
  have hend := hread.step (show Meets twoBytes _ (.deliver [.ok []]) ∧ Step .read twoBytes _ _ _ from
    ⟨fun _ _ _ _ _ hres => absurd rfl hres, .deliver _ rfl rfl⟩)
  exact ⟨_, rfl, rfl, blocks_once hend⟩

/-- The peer reads the first block in two pieces: the second event starts a third block. -/
theorem blocks_break : ¬ ∀ s, (system .read twoBytes).Reach s → Correct .read twoBytes s := by
  intro h
  have hstart : (system .read twoBytes).Reach _ :=
    .start ⟨oneBuffer, 0, 4, [.ok []], oneBuffer_fresh .read, rfl⟩
  have hfirst := hstart.step (show Step .read twoBytes _ (.peer (.call 1 none)) _ from .peer _ rfl)
  have hsecond := hfirst.step (show Step .read twoBytes _ (.peer (.call 1 none)) _ from .peer _ rfl)
  have hend := hsecond.step (show Step .read twoBytes _ (.deliver [.ok []]) _ from .deliver _ rfl rfl)
  have hrest := hend.step (show Step .read twoBytes _ (.peer (.call 2 none)) _ from .peer _ rfl)
  have hagain := hrest.step (show Step .read twoBytes _ (.deliver [.ok []]) _ from .deliver _ rfl rfl)
  exact absurd (h _ hagain).once (by decide)

end Malstream
end Vsf
