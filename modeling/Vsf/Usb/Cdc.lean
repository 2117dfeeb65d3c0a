/-
# The data interface of CDC

Without `VSFUSBD_CDCCFG_TRANSACT` the data interface moves packets between two endpoints and two
byte rings. To the host nothing moves when bytes are in `stream_tx` before the interface connects to
it, and when a packet is over while the endpoint has no handler, as `in_enable` is then left on.
`Meets` leaves them out.
-/
import Mathlib
import Vsf.Lib.System
import Vsf.Buffer.Stream
import Vsf.Usb.UsbdIn
import Vsf.Usb.UsbdOut

namespace Vsf
namespace Usbd

open List

/-- The events of the interface. -/
inductive CdcEvt
  | streamtxOnin
  | streamrxOnout
  | streamtxOnconn
  | streamrxOnconn
deriving DecidableEq

/-- The endpoints, the streams, the flags of `struct vsfusbd_CDC_param_t` and the queued events; if the
device has the handlers; and the history. -/
structure Cdc where
  outSize : UInt16
  inSize : UInt16
  streamRx : Stream Fifo
  streamTx : Stream Fifo
  outEnable : Bool
  inEnable : Bool
  outHandler : Bool
  inHandler : Bool
  hw : Hw
  /-- The hardware has a packet to send. -/
  flying : Bool
  queue : List CdcEvt
  /-- The endpoint was enabled when it was, or without room for a full packet. -/
  wrong : Bool
  /-- A packet was written while another was in flight. -/
  clash : Bool
  /-- Bytes the host sent, and those the application took. -/
  received : List UInt8
  taken : List UInt8
  /-- Bytes the application wrote, and those the host was sent. -/
  written : List UInt8
  sent : List UInt8

/-- `vsf_fifo_pop` into a buffer. -/
def popBytes (f : Fifo) (n : UInt32) : List UInt8 × Fifo :=
  let r := f.pop n (some fun _ => 0)
  (Fifo.firstBytes (r.2.1.getD fun _ => 0) r.1.toNat, r.2.2)

namespace Cdc

/-! ### The operations -/

/-- `vsfhal_usbd_ep_enable_OUT`. -/
def enable (s : Cdc) : Cdc :=
  { s with
    wrong := s.wrong || decide (s.hw ≠ .off) || decide (s.streamRx.mem.getAvailLength < s.outSize.toUInt32)
    hw := .armed }

/-- `vsfusbd_CDCData_OUT_hanlder`. -/
def outHandlerDo (s : Cdc) : Cdc :=
  match s.hw with
  | .full pkg =>
    let s := { s with hw := .off }
    if s.outSize.toNat < pkg.length then s
    else
      let s := { s with streamRx := (Out.write s.streamRx pkg).elim s.streamRx Prod.snd }
      if s.streamRx.mem.getAvailLength < s.outSize.toUInt32 then { s with outEnable := false } else s.enable
  | _ => s

/-- `vsfusbd_CDCData_IN_hanlder`. -/
def inHandlerDo (s : Cdc) : Cdc :=
  let r := popBytes s.streamTx.mem s.inSize.toUInt32
  let s := { s with streamTx := { s.streamTx with mem := r.2 } }
  if r.1 ≠ [] then { s with clash := s.clash || s.flying, flying := true, sent := s.sent ++ r.1 }
  else { s with inEnable := false }

/-- `VSFUSBD_CDC_EVT_STREAMRX_ONOUT`. -/
def onOut (s : Cdc) : Cdc :=
  if s.outEnable = false ∧ s.outSize.toUInt32 ≤ s.streamRx.mem.getAvailLength then enable { s with outEnable := true } else s

/-- `VSFUSBD_CDC_EVT_STREAMTX_ONIN`. -/
def onIn (s : Cdc) : Cdc := if s.inEnable = false then inHandlerDo { s with inEnable := true } else s

/-- `vsfusbd_CDCData_evt_handler`; `vsfsm_post_evt` handles an event at once if there is no other. -/
def evtHandler (s : Cdc) : CdcEvt → Cdc
  | .streamtxOnconn => { s with inHandler := true }
  | .streamrxOnconn =>
    let s := { s with outHandler := true }
    if s.queue = [] then s.onOut else { s with queue := s.queue ++ [.streamrxOnout] }
  | .streamtxOnin => s.onIn
  | .streamrxOnout => s.onOut

/-- The events that a connection posts. -/
def post (s : Cdc) (on : Bool) (evt : CdcEvt) : Cdc := { s with queue := s.queue ++ if on then [evt] else [] }

/-- `stream_connect_tx` of the application. -/
def appConnectTx (s : Cdc) : Cdc :=
  if s.streamTx.txReady then s
  else { s.post true .streamtxOnconn with streamTx := { s.streamTx with txReady := true } }

/-- `stream_connect_rx` of the application. -/
def appConnectRx (s : Cdc) : Cdc :=
  if s.streamRx.rxReady then s
  else { s.post true .streamrxOnconn with streamRx := { s.streamRx with rxReady := true } }

/-- `stream_connect_tx` of the interface. -/
def connectTx (s : Cdc) : Cdc :=
  if s.streamRx.txReady then s
  else { s.post s.streamRx.rxReady .streamrxOnconn with streamRx := { s.streamRx with txReady := true } }

/-- `stream_connect_rx` of the interface. -/
def connectRx (s : Cdc) : Cdc :=
  if s.streamTx.rxReady then s
  else { s.post s.streamTx.txReady .streamtxOnconn with streamTx := { s.streamTx with rxReady := true } }

/-- `vsfusbd_CDCData_connect`. -/
def connect (s : Cdc) : Cdc := s.connectTx.connectRx

/-- `stream_write` of the application, and `vsfusbd_CDCData_streamtx_on_in`. -/
def write (s : Cdc) (data : List UInt8) : Cdc :=
  let r := s.streamTx.mem.push (UInt32.ofNat data.length) (some fun i => data.getD i 0)
  let s := { s with streamTx := { s.streamTx with mem := r.2 }, written := if r.1 ≠ 0 then s.written ++ data else s.written }
  s.post (s.streamTx.rxReady && decide (r.1 ≠ 0)) .streamtxOnin

/-- `stream_read` of the application, and `vsfusbd_CDCData_streamrx_on_out`. -/
def read (s : Cdc) (n : UInt32) : Cdc :=
  let r := popBytes s.streamRx.mem n
  let s := { s with streamRx := { s.streamRx with mem := r.2 }, taken := s.taken ++ r.1 }
  s.post (s.streamRx.txReady && decide (r.1 ≠ [])) .streamrxOnout

/-- A packet from the host is reported. -/
def outDone (s : Cdc) : Cdc := if s.outHandler then s.outHandlerDo else { s with hw := .off }

/-- The packet to the host was sent. -/
def inDone (s : Cdc) : Cdc :=
  let s := { s with flying := false }
  if s.inHandler then s.inHandlerDo else s

/-! ### The runs -/

/-- What may happen next. -/
inductive Act where
  | appConnectTx
  | appConnectRx
  | connect
  | write (data : List UInt8)
  | read (n : UInt32)
  | handle
  /-- The host sends a packet. -/
  | host (pkg : List UInt8)
  | outDone
  | inDone

inductive Step : Cdc → Act → Cdc → Prop
  | appConnectTx {s : Cdc} : Step s .appConnectTx s.appConnectTx
  | appConnectRx {s : Cdc} : Step s .appConnectRx s.appConnectRx
  | connect {s : Cdc} : Step s .connect s.connect
  | write {s : Cdc} (data : List UInt8) (hlen : data.length < 2 ^ 32) : Step s (.write data) (s.write data)
  | read {s : Cdc} (n : UInt32) : Step s (.read n) (s.read n)
  | handle {s : Cdc} {evt : CdcEvt} {q : List CdcEvt} (hq : s.queue = evt :: q) :
      Step s .handle (evtHandler { s with queue := q } evt)
  | host {s : Cdc} (pkg : List UInt8) (harmed : s.hw = .armed) (hlen : pkg.length ≤ s.outSize.toNat) :
      Step s (.host pkg) { s with hw := .full pkg, received := s.received ++ pkg }
  | outDone {s : Cdc} (hfull : s.hw.held = true) : Step s .outDone s.outDone
  | inDone {s : Cdc} (hfly : s.flying = true) : Step s .inDone s.inDone

/-- After `VSFSM_EVT_INIT`: not connected; the application may be, and may have written. -/
structure Fresh (s : Cdc) : Prop where
  size_le : s.outSize ≤ 64 ∧ s.inSize ≤ 64
  rx_inv : s.streamRx.mem.Inv
  tx_inv : s.streamTx.mem.Inv
  rx_room : s.outSize.toNat ≤ s.streamRx.mem.size.toNat - 1
  tx_room : s.inSize.toNat ≤ s.streamTx.mem.size.toNat - 1
  rx_empty : s.streamRx.mem.bytes = []
  apart : s.streamRx.txReady = false ∧ s.streamTx.rxReady = false
  flags : s.outEnable = false ∧ s.inEnable = false ∧ s.outHandler = false ∧ s.inHandler = false
  idle : s.hw = .off ∧ s.flying = false ∧ s.queue = []
  no_history : s.wrong = false ∧ s.clash = false ∧ s.received = [] ∧ s.taken = [] ∧ s.sent = []
  written_eq : s.written = s.streamTx.mem.bytes

def system : System Cdc Act where
  start := Fresh
  step := Step

/-- The endpoint can carry bytes, `stream_tx` is empty when connected to, and a packet sent finds its
handler. -/
def Meets (s : Cdc) (a : Act) : Prop :=
  s.inSize ≠ 0 ∧
  match a with
  | .connect => s.streamTx.rxReady = false → s.streamTx.mem.bytes = []
  | .inDone => s.inHandler = true
  | _ => True

/-- **What the interface is for**: the endpoint is enabled as it may be, what the host sent is in the stream
or taken, a packet still held goes there at its event, what was written is sent or in the stream, and a stream
with bytes does not stall. -/
structure Correct (s : Cdc) : Prop where
  enabled : s.wrong = false
  stored : s.received = s.taken ++ s.streamRx.mem.bytes ++ s.hw.bytes
  fetched : ∀ pkg, s.hw = .full pkg →
    s.outDone.hw.held = false ∧ s.outDone.streamRx.mem.bytes = s.streamRx.mem.bytes ++ pkg
  one : s.clash = false
  moved : s.written = s.sent ++ s.streamTx.mem.bytes
  moves : s.streamTx.mem.bytes ≠ [] → s.streamTx.txReady = true → s.streamTx.rxReady = true → s.queue = [] →
    s.flying = true

/-! ### The streams -/

theorem popBytes_spec {f : Fifo} (h : f.Inv) (n : UInt32) :
    (popBytes f n).1 = f.bytes.take n.toNat ∧ (popBytes f n).2.Inv ∧ (popBytes f n).2.size = f.size ∧
      (popBytes f n).2.bytes = f.bytes.drop n.toNat := by
  obtain ⟨hret, hout, hinv, hsize, hbytes⟩ := Fifo.pop_bytes h n (some fun _ => 0)
  obtain ⟨d, hd, hfirst, -⟩ := Fifo.peek_bytes h n fun _ => 0
  refine ⟨?_, hinv, hsize, hbytes⟩
  unfold popBytes
  simp only
  rw [hret, hout, hd, Fifo.peek_length, Option.getD_some]
  exact hfirst

theorem room_toNat {f : Fifo} (h : f.Inv) : f.getAvailLength.toNat = f.size.toNat - 1 - f.bytes.length := by
  rw [Fifo.getAvailLength_toNat h, ← Fifo.bytes_length]

/-! ### What every step keeps -/

/-- The room in `stream_rx`. -/
def room (s : Cdc) : ℕ := s.streamRx.mem.getAvailLength.toNat

/-- What holds while a packet to the host is made. -/
structure Base (s : Cdc) : Prop where
  rx_inv : s.streamRx.mem.Inv
  tx_inv : s.streamTx.mem.Inv
  enabled : s.wrong = false
  one : s.clash = false
  stored : s.received = s.taken ++ s.streamRx.mem.bytes ++ s.hw.bytes
  moved : s.written = s.sent ++ s.streamTx.mem.bytes
  armed : s.hw = .armed → s.outSize.toNat ≤ s.room
  full : ∀ pkg, s.hw = .full pkg → pkg.length ≤ s.outSize.toNat ∧ pkg.length ≤ s.room
  flag : s.outEnable = true ↔ s.hw ≠ .off
  /-- Before the endpoint has its handler. -/
  quiet : s.outHandler = false → s.streamRx.mem.bytes = [] ∧ s.hw = .off ∧ CdcEvt.streamrxOnout ∉ s.queue

structure Inv (s : Cdc) : Prop extends Base s where
  busy : s.inEnable = s.flying
  moves : s.streamTx.mem.bytes ≠ [] → s.streamTx.rxReady = true → .streamtxOnin ∈ s.queue ∨ s.flying = true

variable {s : Cdc}

theorem epSize_toNat (n : UInt16) (m : UInt32) : n.toUInt32 ≤ m ↔ n.toNat ≤ m.toNat := by
  rw [UInt32.le_iff_toNat_le, UInt16.toNat_toUInt32]

theorem Base.outHandlerDo (h : Base s) (hset : s.outHandler = true) : Base s.outHandlerDo := by
  unfold Cdc.outHandlerDo
  split
  · rename_i pkg hpkg
    obtain ⟨hlen, hfit⟩ := h.full pkg hpkg
    dsimp only
    rw [if_neg (by omega)]
    obtain ⟨stream, hwrite, hinv, hsize, hbytes, -, -, -⟩ := Out.write_fits h.rx_inv pkg hfit
    rw [hwrite]
    show Base (if stream.mem.getAvailLength < s.outSize.toUInt32 then
      { s with hw := .off, streamRx := stream, outEnable := false } else Cdc.enable { s with hw := .off, streamRx := stream })
    have hstored : s.received = s.taken ++ stream.mem.bytes := by
      rw [h.stored, hpkg, hbytes, Hw.bytes_full, append_assoc]
    have hon : s.outEnable = true := h.flag.mpr (by simp [hpkg])
    split_ifs with hless
    · exact { h with
        rx_inv := hinv
        stored := by simpa using hstored
        armed := fun hcon => by cases hcon
        full := fun _ hcon => by cases hcon
        flag := by simp
        quiet := fun hnot => absurd hset (by rw [show s.outHandler = false from hnot]; decide) }
    · -- the flag still stands for the packet that is over
      have hle : s.outSize.toNat ≤ stream.mem.getAvailLength.toNat := (epSize_toNat _ _).mp (UInt32.not_lt.mp hless)
      exact { h with
        rx_inv := hinv
        enabled := by simp [Cdc.enable, h.enabled, hless]
        stored := by simpa [Cdc.enable] using hstored
        armed := fun _ => hle
        full := fun _ hcon => by cases hcon
        flag := by simp [Cdc.enable, hon]
        quiet := fun hnot => absurd hset (by rw [show s.outHandler = false from hnot]; decide) }
  · exact h

theorem Base.inHandlerDo (h : Base s) (hsize : s.inSize ≠ 0) (hfly : s.flying = false) (hon : s.inEnable = true) :
    Inv s.inHandlerDo := by
  obtain ⟨htake, hinv, -, hdrop⟩ := popBytes_spec h.tx_inv s.inSize.toUInt32
  have hpos : s.inSize.toUInt32.toNat ≠ 0 := by
    rw [UInt16.toNat_toUInt32]
    exact fun h0 => hsize (UInt16.toNat_inj.mp h0)
  unfold Cdc.inHandlerDo
  dsimp only
  by_cases hnil : (popBytes s.streamTx.mem s.inSize.toUInt32).1 = []
  · rw [if_neg (not_not.mpr hnil)]
    have hempty : s.streamTx.mem.bytes = [] := by
      rw [htake, take_eq_nil_iff] at hnil
      exact hnil.resolve_left hpos
    rw [hempty, drop_nil] at hdrop
    exact { h with
      tx_inv := hinv
      moved := by rw [h.moved, hempty]; simp [hdrop]
      busy := by simp [hfly]
      moves := fun hcon => absurd hdrop hcon }
  · rw [if_pos hnil]
    exact { h with
      tx_inv := hinv
      one := by simp [h.one, hfly]
      moved := by simp [h.moved, htake, hdrop]
      busy := hon
      moves := fun _ _ => .inr rfl }

theorem Inv.drop (h : Inv s) {evt : CdcEvt} {q : List CdcEvt} (hq : s.queue = evt :: q) (hne : evt ≠ .streamtxOnin) :
    Inv { s with queue := q } :=
  { h with
    quiet := fun hnot => by
      obtain ⟨h1, h2, h3⟩ := h.quiet hnot
      rw [hq] at h3
      exact ⟨h1, h2, fun hmem => h3 (mem_cons_of_mem _ hmem)⟩
    moves := fun hbytes hready => by
      have hmem := h.moves hbytes hready
      rw [hq, mem_cons] at hmem
      exact hmem.imp_left fun hmem => hmem.resolve_left (Ne.symm hne) }

theorem Inv.post (h : Inv s) (on : Bool) (evt : CdcEvt) (hset : on = true → evt = .streamrxOnout → s.outHandler = true) :
    Inv (s.post on evt) :=
  { h with
    quiet := fun hnot => by
      obtain ⟨h1, h2, h3⟩ := h.quiet hnot
      refine ⟨h1, h2, fun hmem => ?_⟩
      rcases mem_append.mp hmem with hmem | hmem
      · exact h3 hmem
      · cases on with
        | false => simp at hmem
        | true =>
          have hevt : evt = .streamrxOnout := (mem_singleton.mp hmem).symm
          have hnot : s.outHandler = false := hnot
          rw [hset rfl hevt] at hnot
          cases hnot
    moves := fun hbytes hready => (h.moves hbytes hready).imp_left fun hmem => mem_append_left _ hmem }

/-- `VSFUSBD_CDC_EVT_STREAMRX_ONOUT`, of an endpoint with its handler. -/
theorem Inv.onOut (h : Inv s) (hset : s.outHandler = true) : Inv s.onOut := by
  unfold Cdc.onOut
  split_ifs with hcond
  · obtain ⟨hoff, hroom⟩ := hcond
    have hhw : s.hw = .off := by
      by_contra hcon
      have := h.flag.mpr hcon
      simp [hoff] at this
    have hle : s.outSize.toNat ≤ s.room := (epSize_toNat _ _).mp hroom
    -- with the flag set only `flag` is different, and `enable` makes it right
    have hle' : ¬ s.streamRx.mem.getAvailLength < s.outSize.toUInt32 := UInt32.not_lt.mpr hroom
    exact { h with
      enabled := by simp [Cdc.enable, h.enabled, hhw, hle']
      stored := by
        show s.received = s.taken ++ s.streamRx.mem.bytes ++ Hw.armed.bytes
        rw [h.stored, hhw, Hw.bytes_off, Hw.bytes_armed]
      armed := fun _ => hle
      full := fun _ hcon => by cases hcon
      flag := by simp [Cdc.enable]
      quiet := fun hnot => absurd hset (by rw [show s.outHandler = false from hnot]; decide) }
  · exact h

theorem Inv.onIn (h : Inv s) {q : List CdcEvt} (hq : s.queue = .streamtxOnin :: q) (hsize : s.inSize ≠ 0) :
    Inv (onIn { s with queue := q }) := by
  have hquiet : s.outHandler = false → s.streamRx.mem.bytes = [] ∧ s.hw = .off ∧ CdcEvt.streamrxOnout ∉ q := by
    intro hnot
    obtain ⟨h1, h2, h3⟩ := h.quiet hnot
    rw [hq] at h3
    exact ⟨h1, h2, fun hmem => h3 (mem_cons_of_mem _ hmem)⟩
  unfold Cdc.onIn
  dsimp only
  by_cases hoff : s.inEnable = false
  · rw [if_pos hoff]
    refine Base.inHandlerDo ?_ hsize (h.busy ▸ hoff) rfl
    exact { h.toBase with quiet := hquiet }
  · rw [if_neg hoff]
    rw [Bool.not_eq_false, h.busy] at hoff
    exact { h with quiet := hquiet, moves := fun _ _ => .inr hoff }

theorem Inv.handle (h : Inv s) {evt : CdcEvt} {q : List CdcEvt} (hq : s.queue = evt :: q) (hsize : s.inSize ≠ 0) :
    Inv (evtHandler { s with queue := q } evt) := by
  cases evt with
  | streamtxOnconn => exact { h.drop hq (by decide) with }
  | streamrxOnconn =>
    have hset : Inv { s with queue := q, outHandler := true } :=
      { h.drop hq (by decide) with quiet := fun hcon => by cases hcon }
    unfold evtHandler
    dsimp only
    split_ifs
    · exact hset.onOut rfl
    · exact hset.post true .streamrxOnout fun _ _ => rfl
  | streamtxOnin => exact h.onIn hq hsize
  | streamrxOnout =>
    refine (h.drop hq (by decide)).onOut ?_
    by_contra hnot
    rw [Bool.not_eq_true] at hnot
    obtain ⟨-, -, hmem⟩ := h.quiet hnot
    exact hmem (by rw [hq]; exact mem_cons_self)

theorem Inv.write (h : Inv s) (data : List UInt8) (hlen : data.length < 2 ^ 32) : Inv (s.write data) := by
  have hn : (UInt32.ofNat data.length).toNat = data.length := UInt32.toNat_ofNat_of_lt' hlen
  have hpush := Fifo.push_bytes h.tx_inv (UInt32.ofNat data.length) fun i => data.getD i 0
  have hdata : Fifo.firstBytes (fun i => data.getD i 0) data.length = data := by
    apply ext_getElem
    · simp [Fifo.firstBytes]
    · intro i h1 h2
      simp [Fifo.firstBytes, h2]
  rw [hn, hdata] at hpush
  unfold Cdc.write
  generalize s.streamTx.mem.push (UInt32.ofNat data.length) (some fun i => data.getD i 0) = r at hpush ⊢
  by_cases hzero : r.1 = 0
  · -- nothing was written, or nothing is there
    have hmem : r.2.Inv ∧ r.2.bytes = s.streamTx.mem.bytes := by
      split_ifs at hpush with hfit
      · obtain ⟨hret, hinv, -, hbytes⟩ := hpush
        have hnil : data = [] := length_eq_zero_iff.mp (by rw [← hn, ← hret, hzero]; rfl)
        exact ⟨hinv, by rw [hbytes, hnil, append_nil]⟩
      · rw [hpush]
        exact ⟨h.tx_inv, rfl⟩
    have hkeep : Inv { s with
        streamTx := { s.streamTx with mem := r.2 }, written := if r.1 ≠ 0 then s.written ++ data else s.written } :=
      { h with
        tx_inv := hmem.1
        moved := by simp [hzero, h.moved, hmem.2]
        moves := fun hne hready => h.moves (by rw [← hmem.2]; exact hne) hready }
    exact hkeep.post _ _ fun hon => by simp [hzero] at hon
  · split_ifs at hpush with hfit
    · obtain ⟨-, hinv, -, hbytes⟩ := hpush
      refine { h with tx_inv := hinv, moved := ?_, quiet := ?_, moves := fun _ hready => .inl ?_ }
      · simp [Cdc.post, hzero, h.moved, hbytes]
      · intro hnot
        obtain ⟨h1, h2, h3⟩ := h.quiet hnot
        refine ⟨h1, h2, fun hmem => ?_⟩
        rcases mem_append.mp hmem with hmem | hmem
        · exact h3 hmem
        · split_ifs at hmem <;> simp at hmem
      · have hready : s.streamTx.rxReady = true := hready
        simp [Cdc.post, hready, hzero]
    · rw [hpush] at hzero
      exact absurd rfl hzero

theorem Inv.read (h : Inv s) (n : UInt32) : Inv (s.read n) := by
  obtain ⟨htake, hinv, hsize, hdrop⟩ := popBytes_spec h.rx_inv n
  have hroom : s.room ≤ (popBytes s.streamRx.mem n).2.getAvailLength.toNat := by
    rw [room, room_toNat h.rx_inv, room_toNat hinv, hsize, hdrop, length_drop]
    omega
  have hkeep : Inv { s with
      streamRx := { s.streamRx with mem := (popBytes s.streamRx.mem n).2 }
      taken := s.taken ++ (popBytes s.streamRx.mem n).1 } :=
    { h with
      rx_inv := hinv
      stored := by rw [h.stored]; simp [htake, hdrop]
      armed := fun harm => (h.armed harm).trans hroom
      full := fun pkg hpkg => ⟨(h.full pkg hpkg).1, (h.full pkg hpkg).2.trans hroom⟩
      quiet := fun hnot => by
        obtain ⟨h1, h2, h3⟩ := h.quiet hnot
        exact ⟨by rw [hdrop, h1, drop_nil], h2, h3⟩ }
  refine hkeep.post _ _ fun hon _ => ?_
  by_contra hnot
  rw [Bool.not_eq_true] at hnot
  obtain ⟨h1, -, -⟩ := h.quiet hnot
  rw [htake, h1] at hon
  simp at hon

theorem Inv.connect (h : Inv s) (hempty : s.streamTx.rxReady = false → s.streamTx.mem.bytes = []) : Inv s.connect := by
  have hrx : Inv s.connectTx := by
    unfold Cdc.connectTx
    split_ifs
    · exact h
    · exact { h.post s.streamRx.rxReady .streamrxOnconn (by simp) with }
  have hsame : s.connectTx.streamTx = s.streamTx := by
    unfold Cdc.connectTx
    split_ifs <;> rfl
  unfold Cdc.connect Cdc.connectRx
  split_ifs with hready
  · exact hrx
  · rw [hsame, Bool.not_eq_true] at hready
    have hnil := hempty hready
    rw [← hsame] at hnil
    exact { hrx.post s.connectTx.streamTx.txReady .streamtxOnconn (by simp) with moves := fun hne => absurd hnil hne }

theorem Inv.appConnectTx (h : Inv s) : Inv s.appConnectTx := by
  unfold Cdc.appConnectTx
  split_ifs
  · exact h
  · exact { h.post true .streamtxOnconn (by simp) with }

theorem Inv.appConnectRx (h : Inv s) : Inv s.appConnectRx := by
  unfold Cdc.appConnectRx
  split_ifs
  · exact h
  · exact { h.post true .streamrxOnconn (by simp) with }

/-- A packet comes when the endpoint has its handler. -/
theorem Inv.outHandler_set (h : Inv s) {pkg : List UInt8} (hpkg : s.hw = .full pkg) : s.outHandler = true := by
  by_contra hnot
  rw [Bool.not_eq_true] at hnot
  have := (h.quiet hnot).2.1
  rw [hpkg] at this
  cases this

theorem Inv.outDone (h : Inv s) (hfull : s.hw.held = true) : Inv s.outDone := by
  obtain ⟨pkg, hpkg⟩ := Hw.held_iff.mp hfull
  have hset := h.outHandler_set hpkg
  unfold Cdc.outDone
  rw [if_pos hset]
  have hbase := h.toBase.outHandlerDo hset
  have hframe : s.outHandlerDo.streamTx = s.streamTx ∧ s.outHandlerDo.inEnable = s.inEnable ∧
      s.outHandlerDo.flying = s.flying ∧ s.outHandlerDo.queue = s.queue := by
    unfold Cdc.outHandlerDo
    rw [hpkg]
    dsimp only
    split_ifs <;> exact ⟨rfl, rfl, rfl, rfl⟩
  obtain ⟨h1, h2, h3, h4⟩ := hframe
  exact { hbase with
    busy := by rw [h2, h3, h.busy]
    moves := by
      rw [h1, h3, h4]
      exact h.moves }

theorem Inv.step (h : Inv s) {a : Act} {s' : Cdc} (hmeets : Meets s a) (hstep : Step s a s') : Inv s' := by
  cases hstep with
  | appConnectTx => exact h.appConnectTx
  | appConnectRx => exact h.appConnectRx
  | connect => exact h.connect hmeets.2
  | write data hlen => exact h.write data hlen
  | read n => exact h.read n
  | handle hq => exact h.handle hq hmeets.1
  | host pkg harmed hlen =>
    have hroom := h.armed harmed
    refine { h with stored := ?_, armed := fun hcon => by (cases hcon), full := ?_, flag := ?_, quiet := ?_ }
    · show s.received ++ pkg = s.taken ++ s.streamRx.mem.bytes ++ (Hw.full pkg).bytes
      rw [h.stored, harmed, Hw.bytes_armed, append_nil, Hw.bytes_full]
    · intro pkg' hpkg
      cases hpkg
      exact ⟨hlen, hlen.trans hroom⟩
    · have hon := h.flag.mpr (by simp [harmed])
      simp [hon]
    · intro hnot
      have := (h.quiet hnot).2.1
      rw [harmed] at this
      cases this
  | outDone hfull => exact h.outDone hfull
  | inDone hfly =>
    unfold Cdc.inDone
    rw [if_pos (show ({ s with flying := false } : Cdc).inHandler = true from hmeets.2)]
    exact Base.inHandlerDo { h.toBase with } hmeets.1 rfl (h.busy.trans hfly)

theorem Fresh.inv (h : Fresh s) : Inv s where
  rx_inv := h.rx_inv
  tx_inv := h.tx_inv
  enabled := h.no_history.1
  one := h.no_history.2.1
  stored := by simp [h.no_history, h.rx_empty, h.idle.1]
  moved := by simp [h.no_history, h.written_eq]
  armed := fun hcon => by simp [h.idle.1] at hcon
  full := fun _ hcon => by simp [h.idle.1] at hcon
  flag := by simp [h.flags.1, h.idle.1]
  quiet := fun _ => ⟨h.rx_empty, h.idle.1, by simp [h.idle.2.2]⟩
  busy := by rw [h.flags.2.1, h.idle.2.1]
  moves := fun _ hready => by simp [h.apart.2] at hready

/-- The event of a packet puts it into `stream_rx`. -/
theorem Inv.fetched (h : Inv s) {pkg : List UInt8} (hpkg : s.hw = .full pkg) :
    s.outDone.hw.held = false ∧ s.outDone.streamRx.mem.bytes = s.streamRx.mem.bytes ++ pkg := by
  obtain ⟨hlen, hfit⟩ := h.full pkg hpkg
  obtain ⟨stream, hwrite, -, -, hbytes, -⟩ := Out.write_fits h.rx_inv pkg hfit
  have hlong : ¬ s.outSize.toNat < pkg.length := by omega
  unfold Cdc.outDone Cdc.outHandlerDo
  simp only [h.outHandler_set hpkg, if_true, hpkg, hlong, if_false, hwrite, Option.elim_some]
  split_ifs
  · exact ⟨rfl, hbytes⟩
  · exact ⟨rfl, hbytes⟩

theorem Inv.correct (h : Inv s) : Correct s where
  enabled := h.enabled
  stored := h.stored
  fetched := fun _ hpkg => h.fetched hpkg
  one := h.one
  moved := h.moved
  moves := fun hne _ hready hnil => (h.moves hne hready).resolve_left (by simp [hnil])

/-- In a run whose steps meet the condition, the interface does what it is for. -/
theorem data_bridged (hr : (system.restrict Meets).Reach s) : Correct s := by
  have hinv : Inv s := hr.invariant (fun s h0 => h0.inv) fun _ _ _ _ hinv hstep => hinv.step hstep.1 hstep.2
  exact hinv.correct

/-- A ring of 15 bytes with some in it. -/
def ring (data : List UInt8) : Fifo where
  buffer := fun i => data.getD i 0
  size := 16
  head := UInt32.ofNat data.length
  tail := 0

/-- Nobody is connected, and `data` was written. -/
def idle (data : List UInt8) : Cdc where
  outSize := 8
  inSize := 8
  streamRx := ⟨ring [], false, false, false⟩
  streamTx := ⟨ring data, false, false, false⟩
  outEnable := false
  inEnable := false
  outHandler := false
  inHandler := false
  hw := .off
  flying := false
  queue := []
  wrong := false
  clash := false
  received := []
  taken := []
  written := data
  sent := []

theorem idle_fresh (data : List UInt8) (hring : (ring data).Inv) (hbytes : (ring data).bytes = data) : Fresh (idle data) where
  size_le := by show (8 : UInt16) ≤ 64 ∧ (8 : UInt16) ≤ 64; decide
  rx_inv := ⟨by show (0 : UInt32) < 16; decide, by show (0 : UInt32) < 16; decide⟩
  tx_inv := hring
  rx_room := by show 8 ≤ 16 - 1; decide
  tx_room := by show 8 ≤ 16 - 1; decide
  rx_empty := by show (ring []).bytes = []; decide
  apart := ⟨rfl, rfl⟩
  flags := ⟨rfl, rfl, rfl, rfl⟩
  idle := ⟨rfl, rfl, rfl⟩
  no_history := ⟨rfl, rfl, rfl, rfl, rfl⟩
  written_eq := hbytes.symm

/-- Both connect, three bytes are written and in flight, and a packet of one byte came. -/
theorem data_bridged_threeBytes :
    ∃ s : Cdc, s.sent = [1, 2, 3] ∧ s.flying = true ∧ s.streamRx.mem.bytes = [9] ∧ s.hw = .armed ∧ Correct s := by
  have h₀ : (system.restrict Meets).Reach (idle []).appConnectTx :=
    .step (i := .appConnectTx) (.start (idle_fresh [] ⟨by decide, by decide⟩ (by decide))) ⟨⟨by decide, trivial⟩, .appConnectTx⟩
  have h₁ := h₀.step (i := .connect) (show Meets _ _ ∧ Step _ _ _ from ⟨⟨by decide, fun _ => by decide⟩, .connect⟩)
  have h₂ := h₁.step (i := .handle) (show Meets _ _ ∧ Step _ _ _ from ⟨⟨by decide, trivial⟩, .handle (by rfl)⟩)
  have h₃ := h₂.step (i := .handle) (show Meets _ _ ∧ Step _ _ _ from ⟨⟨by decide, trivial⟩, .handle (by rfl)⟩)
  have h₄ := h₃.step (i := .write [1, 2, 3]) (show Meets _ _ ∧ Step _ _ _ from
    ⟨⟨by decide, trivial⟩, .write [1, 2, 3] (by decide)⟩)
  have h₅ := h₄.step (i := .handle) (show Meets _ _ ∧ Step _ _ _ from ⟨⟨by decide, trivial⟩, .handle (by rfl)⟩)
  have h₆ := h₅.step (i := .appConnectRx) (show Meets _ _ ∧ Step _ _ _ from ⟨⟨by decide, trivial⟩, .appConnectRx⟩)
  have h₇ := h₆.step (i := .handle) (show Meets _ _ ∧ Step _ _ _ from ⟨⟨by decide, trivial⟩, .handle (by rfl)⟩)
  have h₈ := h₇.step (i := .host [9]) (show Meets _ _ ∧ Step _ _ _ from
    ⟨⟨by decide, trivial⟩, .host [9] (by decide) (by decide)⟩)
  have h₉ := h₈.step (i := .outDone) (show Meets _ _ ∧ Step _ _ _ from ⟨⟨by decide, trivial⟩, .outDone (by decide)⟩)
  exact ⟨_, by decide, by decide, by decide, by decide, data_bridged h₉⟩

/-- A byte from before the connection stays, as does one written when a packet was over without its handler. -/
theorem data_stalls : (∃ s, system.Reach s ∧ s.written = [7] ∧ ¬ Correct s) ∧
    ∃ s, system.Reach s ∧ s.written = [1, 7] ∧ s.sent = [1] ∧ ¬ Correct s := by
  constructor
  · have h₁ : system.Reach (idle [7]).appConnectTx :=
      .step (i := .appConnectTx) (.start (idle_fresh [7] ⟨by decide, by decide⟩ (by decide))) .appConnectTx
    have h₂ := h₁.step (show Step _ .connect _ from .connect)
    have h₃ := h₂.step (show Step _ .handle _ from .handle (by rfl))
    have h₄ := h₃.step (show Step _ .handle _ from .handle (by rfl))
    refine ⟨_, h₄, by rfl, fun h => ?_⟩
    exact absurd (h.moves (by decide) (by rfl) (by rfl) (by rfl)) (by decide)
  · have h₁ : system.Reach (idle []).connect :=
      .step (i := .connect) (.start (idle_fresh [] ⟨by decide, by decide⟩ (by decide))) .connect
    have h₂ := h₁.step (show Step _ (.write [1]) _ from .write [1] (by decide))
    have h₃ := h₂.step (show Step _ .handle _ from .handle (by rfl))
    have h₄ := h₃.step (show Step _ .inDone _ from .inDone (by rfl))
    have h₅ := h₄.step (show Step _ .appConnectTx _ from .appConnectTx)
    have h₆ := h₅.step (show Step _ .handle _ from .handle (by rfl))
    have h₇ := h₆.step (show Step _ (.write [7]) _ from .write [7] (by decide))
    have h₈ := h₇.step (show Step _ .handle _ from .handle (by rfl))
    refine ⟨_, h₈, by rfl, by decide, fun h => ?_⟩
    exact absurd (h.moves (by decide) (by rfl) (by rfl) (by rfl)) (by decide)

end Cdc
end Usbd
end Vsf
