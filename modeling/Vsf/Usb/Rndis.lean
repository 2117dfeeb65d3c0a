/-
# Ethernet frames over RNDIS

`vsfusbd_RNDIS_on_tx_finish` puts the head of a packet message in front of a frame,
`vsfusbd_RNDIS_on_rx_finish` takes the frame out. The message's length has to agree with the data's,
up to a wrap; where the data begins is not checked.
-/
import Mathlib
import Vsf.Lib.ByteMem
import Vsf.Buffer.Stream

namespace Vsf
namespace Rndis

open ByteMem List

/-- `struct vsfip_buffer_t`: its block, `buf`, and whether `netif` is the device's. -/
structure Vbuf where
  buffer : ℕ
  buf : ℕ
  size : ℕ
  netif : Bool
deriving DecidableEq

/-- A buffer is handed to `vsfip_eth_input`, or to `vsfip_buffer_release`. -/
inductive Act
  | ethInput (b : Vbuf)
  | release (b : Vbuf)
deriving DecidableEq

/-! ### `struct rndis_data_packet_t` -/

/-- `sizeof(struct rndis_data_packet_t)`. -/
def packetSize : ℕ := 44

/-- `sizeof(struct rndis_msghead_t)`. -/
def msgheadSize : ℕ := 8

/-- `RNDIS_PACKET_MSG`. -/
def packetMsg : ℕ := 1

def messageLength (m : Mem) (p : ℕ) : ℕ := load32 m (p + 4)

def dataOffset (m : Mem) (p : ℕ) : ℕ := load32 m (p + 8)

def dataLength (m : Mem) (p : ℕ) : ℕ := load32 m (p + 12)

/-! ### Sending -/

/-- The sending part of `struct vsfusbd_RNDIS_param_t`, with the memory in `bufstream`. -/
structure Tx where
  txBuffer : Option Vbuf
  outq : List Vbuf
  bufstream : Bufstream

/-- A message's head: its type and length, the data's offset and length, and seven zeros. -/
def head (size : ℕ) : List ℕ :=
  [packetMsg, size, packetSize - msgheadSize, (size + 2 ^ 32 - packetSize) % 2 ^ 32, 0, 0, 0, 0, 0, 0, 0]

/-- `vsfusbd_RNDIS_on_tx_finish`. -/
def Tx.onTxFinish (t : Tx) : Tx × List Act :=
  if t.bufstream.getDataLength ≠ 0 then (t, [])
  else
    let acts := match t.txBuffer with
      | some b => [Act.release b]
      | none => []
    match t.outq with
    | [] => ({ t with txBuffer := none }, acts)
    | b :: rest =>
      let b := { b with buf := (b.buf + 2 ^ 32 - packetSize) % 2 ^ 32, size := (b.size + packetSize) % 2 ^ 32 }
      let bufstream := { t.bufstream with memory := storeWords t.bufstream.memory b.buf (head b.size) }
      ({ txBuffer := some b, outq := rest, bufstream := (bufstream.write b.size b.buf).2 }, acts)

/-! ### Receiving -/

/-- The part of it for receiving, with the memory in `bufstream`. -/
structure Rx where
  netifInited : Bool
  rxBuffer : Option Vbuf
  bufstream : Bufstream
  rxNobuf : UInt32

/-- What `vsfip_buffer_get` returns is the next buffer to read into. -/
def Rx.next (r : Rx) (fresh : Option Vbuf) : Rx :=
  match fresh with
  | none => { r with rxBuffer := none, rxNobuf := r.rxNobuf + 1 }
  | some b => { r with rxBuffer := some b, bufstream := (r.bufstream.readInto b.size b.buf).2 }

/-- A message of `n` bytes at `p` is taken for one with a frame. -/
def Rx.Accepts (r : Rx) (p n : ℕ) : Prop :=
  r.netifInited = true ∧ messageLength r.bufstream.memory p ≤ n ∧
    messageLength r.bufstream.memory p = (dataLength r.bufstream.memory p + packetSize) % 2 ^ 32

instance (r : Rx) (p n : ℕ) : Decidable (r.Accepts p n) := inferInstanceAs (Decidable (_ ∧ _ ∧ _))

/-- The frame in the message of a buffer. -/
def Rx.frame (r : Rx) (b : Vbuf) : Vbuf :=
  { b with
    buf := (b.buf + (msgheadSize + dataOffset r.bufstream.memory b.buf)) % 2 ^ 32
    size := dataLength r.bufstream.memory b.buf
    netif := true }

/-- `vsfusbd_RNDIS_on_rx_finish`; `fresh` is what `vsfip_buffer_get` returns. -/
def Rx.onRxFinish (r : Rx) (fresh : Option Vbuf) : Rx × List Act :=
  match r.rxBuffer with
  | none => (r.next fresh, [])
  | some b =>
    let b := { b with size := r.bufstream.getDataLength }
    if b.size > 0 then
      if r.Accepts b.buf b.size then (r.next fresh, [.ethInput (r.frame b)]) else (r.next fresh, [.release b])
    else ({ r with rxBuffer := some b }, [])

/-! ### What should happen to a message -/

/-- The bytes `bs` were received into the buffer `b`. -/
structure Received (r : Rx) (b : Vbuf) (bs : List UInt8) : Prop where
  rxBuffer : r.rxBuffer = some b
  read : r.bufstream.read = false
  pos : r.bufstream.pos = bs.length
  bytes : Holds r.bufstream.memory b.buf bs
  inside : b.buf + bs.length < 2 ^ 32

/-- The buffers released from a block. -/
def releases (block : ℕ) (acts : List Act) : ℕ :=
  acts.countP fun a => match a with
    | .release b => b.buffer = block
    | .ethInput _ => false

/-- A frame handed on is where the message says, in its `n` bytes; if none is, the buffer is released once;
no message is there before one arrives. -/
structure Handled (m : Mem) (b : Vbuf) (n : ℕ) (acts : List Act) : Prop where
  bounds : ∀ f, .ethInput f ∈ acts →
    f.buf = b.buf + msgheadSize + dataOffset m b.buf ∧ b.buf ≤ f.buf ∧ f.buf + f.size ≤ b.buf + n
  released : 0 < n → (∀ f, .ethInput f ∉ acts) → releases b.buffer acts = 1

/-- The queue's first frame has room for the head, and all before it was sent. -/
structure Sends (t : Tx) (b : Vbuf) (rest : List Vbuf) (frame : List UInt8) : Prop where
  outq : t.outq = b :: rest
  read : t.bufstream.read = true
  sent : t.bufstream.getDataLength = 0
  size : b.size = frame.length
  bytes : Holds t.bufstream.memory b.buf frame
  room : packetSize < b.buf
  inside : b.buf + frame.length < 2 ^ 32

/-- What is sent next. -/
def Tx.message (t : Tx) : List UInt8 := (List.range t.bufstream.size).map fun i => t.bufstream.memory (t.bufstream.buffer + i)

/-- Every frame that is sent is the frame that is received from its message. -/
def RoundTrip : Prop :=
  ∀ t b rest frame, Sends t b rest frame → ∀ r b' fresh, Received r b' t.onTxFinish.1.message → r.netifInited = true →
    ∃ f, (r.onRxFinish fresh).2 = [.ethInput f] ∧ f.size = frame.length ∧ Holds r.bufstream.memory f.buf frame

/-- Of a message that is taken for one with a frame, the frame is in it. -/
def Meets (r : Rx) (b : Vbuf) (n : ℕ) : Prop :=
  0 < n → r.Accepts b.buf n → msgheadSize + dataOffset r.bufstream.memory b.buf + dataLength r.bufstream.memory b.buf ≤ n

variable {r : Rx} {b : Vbuf} {bs frame : List UInt8} {t : Tx} {rest : List Vbuf}

/-! ### Bounds -/

theorem Received.length (h : Received r b bs) : r.bufstream.getDataLength = bs.length := by
  rw [Bufstream.getDataLength, h.read, h.pos]
  rfl

theorem onRxFinish_acts (h : Received r b bs) (fresh : Option Vbuf) :
    (r.onRxFinish fresh).2 = if 0 < bs.length then
      if r.Accepts b.buf bs.length then [.ethInput (r.frame { b with size := bs.length })] else [.release { b with size := bs.length }]
    else [] := by
  unfold Rx.onRxFinish
  rw [h.rxBuffer]
  dsimp only
  rw [h.length]
  by_cases hpos : 0 < bs.length
  · rw [if_pos hpos, if_pos hpos]
    by_cases hacc : r.Accepts b.buf bs.length
    · rw [if_pos hacc, if_pos hacc]
    · rw [if_neg hacc, if_neg hacc]
  · rw [if_neg hpos, if_neg hpos]

/-- **The frame is in the message** just when its offset and length say so. -/
theorem handled_iff (h : Received r b bs) (fresh : Option Vbuf) :
    Handled r.bufstream.memory b bs.length (r.onRxFinish fresh).2 ↔ Meets r b bs.length := by
  rw [onRxFinish_acts h]
  unfold Meets
  by_cases hpos : 0 < bs.length
  · rw [if_pos hpos]
    by_cases hacc : r.Accepts b.buf bs.length
    · rw [if_pos hacc]
      have hbuf : (r.frame { b with size := bs.length }).buf =
        (b.buf + (msgheadSize + dataOffset r.bufstream.memory b.buf)) % 2 ^ 32 := rfl
      have hsize : (r.frame { b with size := bs.length }).size = dataLength r.bufstream.memory b.buf := rfl
      constructor
      · intro hh _ _
        obtain ⟨hstart, -, hend⟩ := hh.bounds _ mem_cons_self
        rw [hstart, hsize] at hend
        omega
      · intro hmeets
        have hin := hmeets hpos hacc
        have hlt := h.inside
        refine ⟨fun f hf => ?_, fun _ hnone => absurd mem_cons_self (hnone _)⟩
        obtain rfl := Act.ethInput.inj (mem_singleton.mp hf)
        rw [hbuf, hsize, Nat.mod_eq_of_lt (by omega)]
        exact ⟨(Nat.add_assoc ..).symm, Nat.le_add_right .., by omega⟩
    · rw [if_neg hacc]
      refine iff_of_true ⟨fun f hf => ?_, fun _ _ => ?_⟩ fun _ ha => absurd ha hacc
      · cases mem_singleton.mp hf
      · simp [releases]
  · rw [if_neg hpos]
    exact iff_of_true ⟨nofun, fun hn => absurd hn hpos⟩ fun hn => absurd hn hpos

/-! ### The way back -/

theorem head_lt {size : ℕ} (h : size < 2 ^ 32) : ∀ w ∈ head size, w < 2 ^ 32 := by
  intro w hw
  have hmod : (size + 2 ^ 32 - packetSize) % 2 ^ 32 < 2 ^ 32 := Nat.mod_lt _ (by decide)
  simp only [head, packetMsg, packetSize, msgheadSize, mem_cons, not_mem_nil, or_false] at hw hmod
  omega

theorem onTxFinish_spec (h : Sends t b rest frame) :
    t.onTxFinish.1.bufstream = { t.bufstream with
      memory := storeWords t.bufstream.memory (b.buf - packetSize) (head (frame.length + packetSize))
      buffer := b.buf - packetSize
      size := frame.length + packetSize
      pos := 0 } := by
  have hroom := h.room
  have hinside := h.inside
  have hbuf : (b.buf + 2 ^ 32 - packetSize) % 2 ^ 32 = b.buf - packetSize := by
    unfold packetSize at *
    omega
  have hsize : (b.size + packetSize) % 2 ^ 32 = frame.length + packetSize := by
    rw [h.size]
    exact Nat.mod_eq_of_lt (by omega)
  unfold Tx.onTxFinish
  rw [if_neg (not_not.mpr h.sent), h.outq]
  dsimp only
  rw [hbuf, hsize]
  have hwrite := Bufstream.write_lend (s := { t.bufstream with
    memory := storeWords t.bufstream.memory (b.buf - packetSize) (head (frame.length + packetSize)) }) h.read
  rw [hwrite]

theorem message_eq (h : Sends t b rest frame) : t.onTxFinish.1.message =
    (List.range (frame.length + packetSize)).map fun i =>
      storeWords t.bufstream.memory (b.buf - packetSize) (head (frame.length + packetSize)) (b.buf - packetSize + i) := by
  rw [Tx.message, onTxFinish_spec h]

/-- What is received is what stands in the memory it is sent from. -/
theorem message_byte (h : Sends t b rest frame) {m : Mem} {q i : ℕ} (hq : Holds m q t.onTxFinish.1.message)
    (hi : i < frame.length + packetSize) :
    m (q + i) = storeWords t.bufstream.memory (b.buf - packetSize) (head (frame.length + packetSize)) (b.buf - packetSize + i) := by
  rw [message_eq h] at hq
  rw [hq i (by rw [length_map, length_range]; exact hi), getElem_map, getElem_range]

theorem message_word (h : Sends t b rest frame) {m : Mem} {q k : ℕ} (hq : Holds m q t.onTxFinish.1.message) (hk : k < 11) :
    load32 m (q + 4 * k) = (head (frame.length + packetSize)).getD k 0 := by
  have hroom := h.room
  have hinside := h.inside
  have hsize : packetSize = 44 := rfl
  have hsame : load32 m (q + 4 * k) =
      load32 (storeWords t.bufstream.memory (b.buf - packetSize) (head (frame.length + packetSize))) (b.buf - packetSize + 4 * k) := by
    unfold load32
    simp only [add_assoc]
    rw [message_byte h hq (by omega), message_byte h hq (by omega), message_byte h hq (by omega), message_byte h hq (by omega)]
  rw [hsame]
  exact load32_storeWords _ _ _ k (head_lt (by omega)) hk

theorem message_frame (h : Sends t b rest frame) {m : Mem} {q : ℕ} (hq : Holds m q t.onTxFinish.1.message) :
    Holds m (q + packetSize) frame := by
  intro i hi
  have hroom := h.room
  have hidx : b.buf - packetSize + (packetSize + i) = b.buf + i := by omega
  have hout : storeWords t.bufstream.memory (b.buf - packetSize) (head (frame.length + packetSize)) (b.buf + i) =
      t.bufstream.memory (b.buf + i) := by
    apply same_storeWords (head (frame.length + packetSize)) t.bufstream.memory (b.buf - packetSize)
    have hfour : 4 * (head (frame.length + packetSize)).length = packetSize := rfl
    rw [hfour]
    omega
  rw [add_assoc, message_byte h hq (by omega), hidx, hout]
  exact h.bytes i hi

/-- **The head of a message** says where the frame is. -/
theorem message_fields (h : Sends t b rest frame) {m : Mem} {q : ℕ} (hq : Holds m q t.onTxFinish.1.message) :
    messageLength m q = frame.length + packetSize ∧ dataOffset m q = packetSize - msgheadSize ∧ dataLength m q = frame.length := by
  have hlen : (frame.length + packetSize + 2 ^ 32 - packetSize) % 2 ^ 32 = frame.length := by
    have hroom := h.room
    have hinside := h.inside
    omega
  have hone := message_word (k := 1) h hq (by decide)
  have htwo := message_word (k := 2) h hq (by decide)
  have hthree := message_word (k := 3) h hq (by decide)
  simp only [head, getD_cons_succ, getD_cons_zero] at hone htwo hthree
  rw [hlen] at hthree
  exact ⟨hone, htwo, hthree⟩

/-- **Every frame arrives.** -/
theorem roundTrip : RoundTrip := by
  intro t b rest frame h r b' fresh hr hinit
  obtain ⟨hmsg, hoff, hlen⟩ := message_fields h hr.bytes
  have hsize : t.onTxFinish.1.message.length = frame.length + packetSize := by
    rw [message_eq h]
    simp
  have hinside := hr.inside
  rw [hsize] at hinside
  have hacc : r.Accepts b'.buf t.onTxFinish.1.message.length := by
    refine ⟨hinit, by rw [hmsg, hsize], ?_⟩
    rw [hmsg, hlen, Nat.mod_eq_of_lt (by omega)]
  have hpos : 0 < t.onTxFinish.1.message.length := by
    rw [hsize]
    exact Nat.add_pos_right _ (by decide)
  refine ⟨r.frame { b' with size := t.onTxFinish.1.message.length }, ?_, hlen, ?_⟩
  · rw [onRxFinish_acts hr, if_pos hpos, if_pos hacc]
  · have hbuf : (r.frame { b' with size := t.onTxFinish.1.message.length }).buf = b'.buf + packetSize := by
      change (b'.buf + (msgheadSize + dataOffset r.bufstream.memory b'.buf)) % 2 ^ 32 = b'.buf + packetSize
      rw [hoff, show msgheadSize + (packetSize - msgheadSize) = packetSize from rfl, Nat.mod_eq_of_lt (by omega)]
    rw [hbuf]
    exact message_frame h hr.bytes

/-- **A received message** is handled well, and frames arrive, just when its offset and length, if accepted,
do not lead out of it. -/
theorem bounds_iff (h : Received r b bs) (fresh : Option Vbuf) :
    (Handled r.bufstream.memory b bs.length (r.onRxFinish fresh).2 ∧ RoundTrip) ↔ Meets r b bs.length :=
  (and_iff_left roundTrip).trans (handled_iff h fresh)

/-- A message of a head alone, with an offset of 100. -/
def farMessage : List UInt8 :=
  [1, 0, 0, 0, 44, 0, 0, 0, 100, 0, 0, 0] ++ List.replicate 32 0

/-- A receiver with a message in its buffer. -/
def rxOf (bs : List UInt8) : Rx where
  netifInited := true
  rxBuffer := some ⟨0x1000, 0x1000, 1564, false⟩
  bufstream := ⟨fun i => bs.getD (i - 0x1000) 0, 0x1000, 1564, false, bs.length⟩
  rxNobuf := 0

theorem rxOf_received {bs : List UInt8} (hlen : 0x1000 + bs.length < 2 ^ 32) :
    Received (rxOf bs) ⟨0x1000, 0x1000, 1564, false⟩ bs := by
  refine ⟨rfl, rfl, rfl, fun i hi => ?_, hlen⟩
  have hidx : 0x1000 + i - 0x1000 = i := Nat.add_sub_cancel_left ..
  simp only [rxOf, hidx]
  exact getD_eq_getElem _ _ hi

/-- A message with a frame of four bytes. -/
def nearMessage : List UInt8 :=
  [1, 0, 0, 0, 48, 0, 0, 0, 36, 0, 0, 0, 4, 0, 0, 0] ++ List.replicate 32 0

theorem bounds_iff_near : Handled (rxOf nearMessage).bufstream.memory ⟨0x1000, 0x1000, 1564, false⟩ nearMessage.length
    ((rxOf nearMessage).onRxFinish none).2 ∧ RoundTrip :=
  (bounds_iff (rxOf_received (by decide)) none).mpr fun _ _ => by decide +kernel

/-- **Its frame** is behind the message. -/
theorem handled_far : ¬∀ (r : Rx) (b : Vbuf) (bs : List UInt8) (fresh : Option Vbuf), Received r b bs →
    Handled r.bufstream.memory b bs.length (r.onRxFinish fresh).2 := by
  intro hall
  have hfar : Received (rxOf farMessage) _ farMessage := rxOf_received (by decide)
  have hmeets := (handled_iff hfar none).mp (hall _ _ _ none hfar)
  exact absurd (hmeets (by decide +kernel) (by decide +kernel)) (by decide +kernel)

end Rndis
end Vsf
