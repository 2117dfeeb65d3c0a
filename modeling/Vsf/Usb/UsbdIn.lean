/-
# Transfers from the device

`vsfusbd_ep_send` hands `data_size` bytes of a stream to the hardware, a packet at a time;
`vsfusbd_on_IN_do` does the work, when a packet has been sent and when an `idle` transfer's stream
has something new. `Source` is what is relied on of the stream. An empty transfer hands over its
zero-length packet and is still `idle`, so an event of the stream counts as its completion; `Meets`
leaves that out.
-/
import Mathlib
import Vsf.Lib.System
import Vsf.Buffer.Stream
import Vsf.Usb.Usbd

namespace Vsf.Usbd

open List

/-! ### Streams to read from -/

/-- A stream and the bytes in it. -/
structure Source (σ : Type) where
  bytes : σ → List UInt8
  /-- `stream_get_data_size`. -/
  getDataLength : σ → UInt32
  /-- `stream_read`: the bytes at the pointer, and what is left. -/
  read : σ → UInt32 → List UInt8 × σ
  length_eq : ∀ m, (getDataLength m).toNat = (bytes m).length
  read_bytes : ∀ m n, n.toNat ≤ (bytes m).length → (read m n).1 = (bytes m).take n.toNat ∧
    bytes (read m n).2 = (bytes m).drop n.toNat

/-- A ring whose indices are in the array. -/
def fifoSource : Source { f : Fifo // f.Inv } where
  bytes f := f.1.bytes
  getDataLength f := f.1.getDataLength
  read f n :=
    let r := f.1.pop n (some fun _ => 0)
    (Fifo.firstBytes (r.2.1.getD fun _ => 0) r.1.toNat,
      ⟨r.2.2, (Fifo.pop_bytes f.2 n (some fun _ => 0)).2.2.1⟩)
  length_eq f := (Fifo.bytes_length f.1).symm
  read_bytes f n h := by
    obtain ⟨hret, hout, -, -, hbytes⟩ := Fifo.pop_bytes f.2 n (some fun _ => 0)
    obtain ⟨d, hd, hfirst, -⟩ := Fifo.peek_bytes f.2 n fun _ => 0
    have hlen := Fifo.peek_length (f := f.1) n (some fun _ => 0)
    refine ⟨?_, hbytes⟩
    simp only
    rw [hret, hout, hd, hlen, Option.getD_some]
    exact hfirst

/-! ### What the host should get -/

/-- Cut into packets of `n` bytes, the last one shorter if need be. -/
def split (n : ℕ) (data : List UInt8) : List (List UInt8) :=
  if _h : n = 0 ∨ data = [] then [] else data.take n :: split n (data.drop n)
termination_by data.length
decreasing_by
  have := length_pos_iff.mpr (fun hnil => _h (.inr hnil))
  rw [length_drop]
  omega

/-- **A transfer's packets**: its bytes, and an empty one if there are none or one is asked for and the last
is full. -/
def packets (n : ℕ) (zlp : Bool) (data : List UInt8) : List (List UInt8) :=
  split n data ++ if data = [] ∨ (zlp = true ∧ n ∣ data.length) then [[]] else []

theorem split_nil (n : ℕ) : split n [] = [] := by
  rw [split]
  simp

variable {n : ℕ} {data : List UInt8}

theorem split_cons (hn : n ≠ 0) (hdata : data ≠ []) : split n data = data.take n :: split n (data.drop n) := by
  rw [split]
  simp [hn, hdata]

variable {zlp : Bool}

theorem packets_full (hn : n ≠ 0) (hmore : n < data.length) :
    packets n zlp data = data.take n :: packets n zlp (data.drop n) := by
  have hne : data ≠ [] := ne_nil_of_length_pos (by omega)
  have hrest : data.drop n ≠ [] := ne_nil_of_length_pos (by rw [length_drop]; omega)
  have hdvd : n ∣ (data.drop n).length ↔ n ∣ data.length := by
    rw [length_drop]
    rw [Nat.dvd_sub_self_right]
    exact or_iff_left (by omega)
  simp only [packets, split_cons hn hne, hne, hrest, hdvd, cons_append]

theorem packets_last (hpos : 0 < data.length) (hle : data.length ≤ n) :
    packets n zlp data = data :: if zlp = true ∧ data.length = n then [[]] else [] := by
  have hne : data ≠ [] := ne_nil_of_length_pos hpos
  have hdvd : n ∣ data.length ↔ data.length = n := by
    constructor
    · intro h
      have := Nat.le_of_dvd hpos h
      omega
    · intro h
      rw [h]
  simp only [packets, split_cons (show n ≠ 0 by omega) hne, hne, hdvd, take_of_length_le hle,
    drop_of_length_le hle, split_nil, false_or, cons_append, nil_append]

theorem packets_ne_nil (hn : n ≠ 0) (zlp : Bool) (data : List UInt8) : packets n zlp data ≠ [] := by
  by_cases hdata : data = []
  · simp [packets, hdata]
  · simp [packets, split_cons hn hdata]

/-! ### The operations -/

/-- A transfer from the device: endpoint, `struct vsfusbd_transact_t`, the memory `mem` and the event queue;
and the history: the packets, if two were in flight, the calls of `on_finish`, the bytes given, and what was
asked for. -/
structure In (σ : Type) where
  ep : UInt32
  epSize : UInt16
  dataSize : UInt32
  zlp : Bool
  idle : Bool
  /-- `IN_transact[ep]` and `IN_handler[ep]` are set. -/
  active : Bool
  mem : σ
  txReady : Bool
  rxReady : Bool
  /-- `callback_rx.on_inout` and `callback_rx.on_disconnect` are set. -/
  listening : Bool
  /-- The hardware has a packet to send. -/
  flying : Bool
  queue : List UInt32
  handed : List (List UInt8)
  clash : Bool
  finished : ℕ
  supplied : List UInt8
  length : ℕ
  asked : Bool

namespace In

variable {σ : Type}

/-- `vsfhal_usbd_ep_set_IN_count` of what was written before it. -/
def hand (s : In σ) (pkg : List UInt8) : In σ :=
  { s with clash := s.clash || s.flying, flying := true, handed := s.handed ++ [pkg] }

/-- `vsfusbd_ep_cancel_send`. -/
def cancelSend (s : In σ) : In σ :=
  { s with listening := false, active := false, finished := s.finished + 1 }

/-- `vsfusbd_on_IN_do`. -/
def onIn (src : Source σ) (s : In σ) : In σ :=
  if s.dataSize ≠ 0 then
    let dataSize := src.getDataLength s.mem
    let curSize := pkgSize s.epSize s.dataSize
    if dataSize < curSize.toUInt32 then
      let s := { s with idle := true }
      if ¬ s.txReady ∧ dataSize < s.dataSize then s.cancelSend else s
    else
      let left := s.dataSize - curSize.toUInt32
      let r := src.read s.mem curSize.toUInt32
      hand { s with
        idle := false
        dataSize := left
        zlp := if left = 0 ∧ curSize < s.epSize then false else s.zlp
        mem := r.2 } r.1
  else if s.zlp then hand { s with zlp := false } []
  else s.cancelSend

/-- `vsfusbd_ep_send`; the endpoint number has been checked. -/
def epSend (src : Source σ) (s : In σ) : In σ :=
  let s := { s with active := true, idle := true }
  if s.dataSize ≠ 0 then onIn src { s with listening := true, rxReady := true }
  else s.hand []

/-- `vsfusbd_evt_handler` for this endpoint: an idle transfer's stream event is taken for
`VSFUSBD_INTEVT_IN`. -/
def evtHandler (src : Source σ) (s : In σ) (evt : UInt32) : In σ :=
  match decode evt with
  | some (ep, kind) =>
    if ep = s.ep ∧ s.active then
      match kind with
      | .closeIn | .streamIn => if s.idle then s.onIn src else s
      | .intIn => s.onIn src
      | _ => s
    else s
  | none => s

/-! ### The runs -/

/-- What may happen next. -/
inductive Act where
  /-- The writer adds bytes to the stream. -/
  | write (bs : List UInt8)
  /-- The writer leaves the stream. -/
  | leave
  /-- The hardware has sent the packet. -/
  | sent
  /-- An event from elsewhere, one of an earlier transfer too. -/
  | post (evt : UInt32)
  | handle

/-- No report of a packet sent. -/
def Foreign (ep evt : UInt32) : Prop := decode evt ≠ some (ep, .intIn)

/-- The writer leaves once it has supplied all bytes. -/
inductive Step (src : Source σ) : In σ → Act → In σ → Prop
  | write {s : In σ} {bs : List UInt8} {m : σ} (hm : src.bytes m = src.bytes s.mem ++ bs) :
      Step src s (.write bs) { s with
        mem := m
        supplied := s.supplied ++ bs
        queue := if s.rxReady ∧ s.listening ∧ bs ≠ [] then s.queue ++ [Kind.streamIn.word s.ep] else s.queue }
  | leave {s : In σ} (hall : s.length ≤ s.supplied.length) :
      Step src s .leave { s with
        txReady := false
        queue := if s.txReady ∧ s.listening then s.queue ++ [Kind.closeIn.word s.ep] else s.queue }
  | sent {s : In σ} (hfly : s.flying = true) :
      Step src s .sent { s with flying := false, queue := s.queue ++ [Kind.intIn.word s.ep] }
  | post {s : In σ} {evt : UInt32} (hevt : Foreign s.ep evt) :
      Step src s (.post evt) { s with queue := s.queue ++ [evt] }
  | handle {s : In σ} {evt : UInt32} {q : List UInt32} (hq : s.queue = evt :: q) :
      Step src s .handle ({ s with queue := q }.evtHandler src evt)

/-- The writer is connected, the hardware free; the queue may hold earlier transfers' events. -/
structure Fresh (src : Source σ) (s : In σ) : Prop where
  ep_le : s.ep ≤ 15
  epSize_pos : 1 ≤ s.epSize.toNat
  writer : s.txReady = true
  still : s.flying = false
  foreign : ∀ evt ∈ s.queue, Foreign s.ep evt
  no_history : s.handed = [] ∧ s.clash = false ∧ s.finished = 0
  supplied_eq : s.supplied = src.bytes s.mem
  length_eq : s.length = s.dataSize.toNat
  asked_eq : s.asked = s.zlp

/-- A transfer from `vsfusbd_ep_send` on. -/
def system (src : Source σ) : System (In σ) Act where
  start s := ∃ s₀, Fresh src s₀ ∧ s = s₀.epSend src
  step := Step src

/-! ### What the transfer owes -/

/-- A report of a packet sent. -/
def isReport (ep evt : UInt32) : Bool := decide (decode evt = some (ep, .intIn))

/-- All bytes are there, their packets handed over, and the last has been sent. -/
def Sent (s : In σ) : Prop :=
  s.length ≤ s.supplied.length ∧ s.handed = packets s.epSize.toNat s.asked (s.supplied.take s.length) ∧ s.flying = false

/-- What a transfer owes its user: one packet at a time, the first ones of the transfer whatever is to come;
`on_finish` once, when the last is sent and by the time that is handled; and it waits only for the writer.
-/
structure Correct (src : Source σ) (s : In σ) : Prop where
  one_flying : s.clash = false
  in_order : ∀ data, data.length = s.length → s.supplied.take s.length <+: data →
    s.handed <+: packets s.epSize.toNat s.asked data
  finished : s.finished = 0 ∨ s.finished = 1
  sent : s.finished = 1 → s.Sent
  ended : s.Sent → (∀ evt ∈ s.queue, isReport s.ep evt = false) → s.finished = 1
  writer : s.finished = 0 → s.flying = false → s.queue = [] →
    (src.bytes s.mem).length < min s.epSize.toNat s.dataSize.toNat

/-- The transfer is not empty, or asks for no zero-length packet, and its stream's events are not handled
with a packet in flight. -/
def Meets (s : In σ) (a : Act) : Prop :=
  0 < s.length ∨ (s.asked = false ∧ ∀ evt q, a = .handle → s.queue = evt :: q → s.flying = true →
    decode evt ≠ some (s.ep, .streamIn) ∧ decode evt ≠ some (s.ep, .closeIn))

/-! ### Transfers that are not empty -/

/-- The packets still to be handed over. -/
def rest (s : In σ) (data : List UInt8) : List (List UInt8) :=
  if s.dataSize = 0 then if s.zlp then [[]] else []
  else packets s.epSize.toNat s.asked (data.drop (s.length - s.dataSize.toNat))

/-- What every step keeps, the event queue apart. -/
structure Base (src : Source σ) (s : In σ) : Prop where
  ep_le : s.ep ≤ 15
  epSize_pos : 1 ≤ s.epSize.toNat
  length_pos : 0 < s.length
  one_flying : s.clash = false
  writer : s.txReady = true ∨ s.length ≤ s.supplied.length
  data_le : s.dataSize.toNat ≤ s.length
  sent_le : s.length - s.dataSize.toNat ≤ s.supplied.length
  mem_eq : src.bytes s.mem = s.supplied.drop (s.length - s.dataSize.toNat)
  asked_eq : s.dataSize ≠ 0 → s.zlp = s.asked
  handed_eq : ∀ data, data.length = s.length → s.supplied.take s.length <+: data →
    packets s.epSize.toNat s.asked data = s.handed ++ s.rest data
  finished_eq : s.finished = if s.active then 0 else 1
  listening : s.active = true → s.rxReady = true ∧ s.listening = true
  closed : s.active = false → s.dataSize = 0 ∧ s.zlp = false

/-- A packet in flight, or its report, is what a transfer that is not idle waits for. -/
structure Inv (src : Source σ) (s : In σ) : Prop extends Base src s where
  reports : s.queue.countP (isReport s.ep) + (if s.flying then 1 else 0) = if s.active ∧ s.idle = false then 1 else 0
  idle : s.active = true → s.idle = true → s.dataSize ≠ 0
  waiting : s.active = true → s.idle = true → Kind.streamIn.word s.ep ∉ s.queue →
    (src.bytes s.mem).length < min s.epSize.toNat s.dataSize.toNat

variable {src : Source σ}

/-- Nothing is in flight and nothing is reported. -/
structure Ready (src : Source σ) (s : In σ) : Prop extends Base src s where
  active : s.active = true
  still : s.flying = false
  quiet : s.queue.countP (isReport s.ep) = 0
  idle : s.idle = true → s.dataSize ≠ 0

theorem Base.mem_length {s : In σ} (h : Base src s) :
    (src.bytes s.mem).length = s.supplied.length - (s.length - s.dataSize.toNat) := by
  rw [h.mem_eq, length_drop]

theorem Base.next_bytes {s : In σ} (h : Base src s) {n : ℕ} (hn : n ≤ (src.bytes s.mem).length)
    (hle : n ≤ s.dataSize.toNat) {data : List UInt8} (hpre : s.supplied.take s.length <+: data) :
    (src.bytes s.mem).take n = (data.drop (s.length - s.dataSize.toNat)).take n := by
  have hlen := h.mem_length
  have hdata := h.data_le
  have hsent := h.sent_le
  obtain ⟨more, rfl⟩ := hpre
  rw [h.mem_eq, drop_append_of_le_length (by rw [length_take]; omega), take_append_of_le_length
    (by rw [length_drop, length_take]; omega), List.drop_take, take_take]
  congr 1
  omega

/-- `vsfusbd_on_IN_do`, when no packet is in flight. -/
theorem Ready.onIn {s : In σ} (h : Ready src s) : Inv src (s.onIn src) := by
  have hmem := src.length_eq s.mem
  have hlen := h.mem_length
  have hdata := h.data_le
  have hsent := h.sent_le
  have hpkg := pkgSize_toNat s.epSize s.dataSize
  have hpkg32 : (pkgSize s.epSize s.dataSize).toUInt32.toNat = min s.epSize.toNat s.dataSize.toNat := by simp
  have hquiet := h.quiet
  have hstill := h.still
  unfold In.onIn
  by_cases hzero : s.dataSize = 0
  · have hidle : s.idle = false := by
      by_contra hne
      exact h.idle (by simpa using hne) hzero
    rw [if_neg (not_not.mpr hzero)]
    by_cases hzlp : s.zlp = true
    · rw [if_pos hzlp]
      exact { h with
        one_flying := by simp [hand, h.one_flying, hstill]
        asked_eq := fun hne => absurd hzero hne
        handed_eq := fun data h1 h2 => by
          have := h.handed_eq data h1 h2
          simpa [rest, hand, hzero, hzlp] using this
        closed := fun ha => absurd (h.active.symm.trans ha) (by simp)
        reports := by simp [hand, hquiet, h.active, hidle]
        idle := fun _ hi => absurd (hidle.symm.trans hi) (by simp)
        waiting := fun _ hi => absurd (hidle.symm.trans hi) (by simp) }
    · rw [if_neg hzlp]
      have hfin := h.finished_eq
      rw [if_pos h.active] at hfin
      exact { h with
        finished_eq := by simp [cancelSend, hfin]
        listening := fun ha => nomatch ha
        closed := fun _ => ⟨hzero, Bool.eq_false_iff.mpr hzlp⟩
        reports := by simp [cancelSend, hquiet, hstill]
        idle := fun ha => nomatch ha
        waiting := fun ha => nomatch ha }
  · rw [if_pos hzero]
    simp only
    have hpos : s.dataSize.toNat ≠ 0 := fun hz => hzero (UInt32.toNat_inj.mp hz)
    by_cases hfew : src.getDataLength s.mem < (pkgSize s.epSize s.dataSize).toUInt32
    · rw [if_pos hfew]
      have hfew' := UInt32.lt_iff_toNat_lt.mp hfew
      rw [hpkg32, hmem] at hfew'
      have hstay : ¬ (¬ s.txReady ∧ src.getDataLength s.mem < s.dataSize) := by
        rintro ⟨htx, hlt⟩
        rw [UInt32.lt_iff_toNat_lt, hmem] at hlt
        rcases h.writer with hw | hw
        · exact htx hw
        · omega
      rw [if_neg hstay]
      exact { h with
        reports := by simp [hquiet, hstill]
        idle := fun _ _ => hzero
        waiting := fun _ _ _ => hfew' }
    · rw [if_neg hfew]
      have hfew' : min s.epSize.toNat s.dataSize.toNat ≤ (src.bytes s.mem).length := by
        rw [UInt32.lt_iff_toNat_lt, hpkg32, hmem] at hfew
        omega
      obtain ⟨hread, hleft⟩ := src.read_bytes s.mem (pkgSize s.epSize s.dataSize).toUInt32 (by rw [hpkg32]; exact hfew')
      rw [hpkg32] at hread hleft
      have hsub : (s.dataSize - (pkgSize s.epSize s.dataSize).toUInt32).toNat =
          s.dataSize.toNat - min s.epSize.toNat s.dataSize.toNat := by
        rw [UInt32.toNat_sub_of_le _ _ (UInt32.le_iff_toNat_le.mpr (by rw [hpkg32]; omega)), hpkg32]
      have hepos := h.epSize_pos
      have hshort : pkgSize s.epSize s.dataSize < s.epSize ↔ s.dataSize.toNat < s.epSize.toNat := by
        rw [UInt16.lt_iff_toNat_lt, hpkg]
        omega
      have hall : s.dataSize - (pkgSize s.epSize s.dataSize).toUInt32 = 0 ↔ s.dataSize.toNat ≤ s.epSize.toNat := by
        rw [← UInt32.toNat_inj, hsub, UInt32.toNat_zero]
        omega
      exact { h with
        one_flying := by simp [hand, h.one_flying, hstill]
        data_le := by
          show (s.dataSize - (pkgSize s.epSize s.dataSize).toUInt32).toNat ≤ s.length
          omega
        sent_le := by
          show s.length - (s.dataSize - (pkgSize s.epSize s.dataSize).toUInt32).toNat ≤ s.supplied.length
          omega
        mem_eq := by
          show src.bytes (src.read s.mem (pkgSize s.epSize s.dataSize).toUInt32).2 =
            s.supplied.drop (s.length - (s.dataSize - (pkgSize s.epSize s.dataSize).toUInt32).toNat)
          rw [hleft, h.mem_eq, drop_drop, hsub]
          congr 1
          omega
        asked_eq := fun hne => by
          show (if _ ∧ _ then false else s.zlp) = s.asked
          rw [if_neg (fun hc => hne hc.1)]
          exact h.asked_eq hzero
        handed_eq := fun data (h1 : data.length = s.length) h2 => by
          have hbytes := h.next_bytes hfew' (min_le_right _ _) h2
          have hwhole := h.handed_eq data h1 h2
          have hD : (data.drop (s.length - s.dataSize.toNat)).length = s.dataSize.toNat := by
            rw [length_drop]
            omega
          simp only [rest, hzero, if_false] at hwhole
          simp only [hand, rest, hall, hshort, hread, hbytes, hwhole, append_assoc, singleton_append]
          congr 1
          by_cases hlast : s.dataSize.toNat ≤ s.epSize.toNat
          · rw [packets_last (by omega) (by omega), if_pos hlast, h.asked_eq hzero, hD,
              take_of_length_le (by omega)]
            congr 1
            by_cases hlt : s.dataSize.toNat < s.epSize.toNat
            · simp [hlast, hlt, hlt.ne]
            · simp [show s.dataSize.toNat = s.epSize.toNat by omega]
          · rw [packets_full (by omega) (by omega), if_neg hlast, min_eq_left (by omega), hsub, drop_drop]
            congr 3
            omega
        closed := fun ha => absurd (h.active.symm.trans ha) (by simp)
        reports := by simp [hand, hquiet, h.active]
        idle := fun _ hi => nomatch hi
        waiting := fun _ hi => nomatch hi }

theorem Inv.ready {s : In σ} (h : Inv src s) {q : List UInt32} (hact : s.active = true) (hstill : s.flying = false)
    (hq : q.countP (isReport s.ep) = 0) : Ready src { s with queue := q } :=
  { h with active := hact, still := hstill, quiet := hq, idle := h.idle hact }

theorem isReport_word {ep : UInt32} (h : ep ≤ 15) (k : Kind) : isReport ep (k.word ep) = decide (k = .intIn) := by
  simp [isReport, decode_word k h]

theorem Inv.post {s : In σ} (h : Inv src s) (evt : UInt32) (hevt : Foreign s.ep evt) :
    Inv src { s with queue := s.queue ++ [evt] } := by
  have hno : isReport s.ep evt = false := decide_eq_false hevt
  exact { h with
    reports := by
      show (s.queue ++ [evt]).countP (isReport s.ep) + _ = _
      simpa [hno] using h.reports
    waiting := fun h1 h2 h3 => h.waiting h1 h2 fun hm => h3 (mem_append_left _ hm) }

theorem Inv.drop {s : In σ} (h : Inv src s) {evt : UInt32} {q : List UInt32} (hq : s.queue = evt :: q)
    (hno : decode evt ≠ some (s.ep, .intIn))
    (hmore : s.active = false ∨ s.idle = false ∨ decode evt ≠ some (s.ep, .streamIn)) :
    Inv src { s with queue := q } := by
  have hrep := h.reports
  rw [hq, countP_cons_of_neg (by simp [isReport, hno])] at hrep
  exact { h with
    reports := hrep
    waiting := fun h1 h2 h3 => by
      rcases hmore with hr | hr | hr
      · exact absurd (h1.symm.trans hr) (by simp)
      · exact absurd (h2.symm.trans hr) (by simp)
      · apply h.waiting h1 h2
        intro hm
        rw [hq] at hm
        rcases mem_cons.mp hm with he | hm
        · rw [← he, decode_word _ h.ep_le] at hr
          exact hr rfl
        · exact h3 hm }

theorem Inv.write {s : In σ} (h : Inv src s) {bs : List UInt8} {m : σ} (hm : src.bytes m = src.bytes s.mem ++ bs) :
    Inv src { s with
      mem := m
      supplied := s.supplied ++ bs
      queue := if s.rxReady ∧ s.listening ∧ bs ≠ [] then s.queue ++ [Kind.streamIn.word s.ep] else s.queue } := by
  have hsent := h.sent_le
  have hkeep : ∀ q, q.countP (isReport s.ep) = s.queue.countP (isReport s.ep) →
      (s.active = true → Kind.streamIn.word s.ep ∈ q ∨ (bs = [] ∧ q = s.queue)) →
      Inv src { s with mem := m, supplied := s.supplied ++ bs, queue := q } := by
    intro q hcount hpost
    exact { h with
      writer := by
        rcases h.writer with hw | hw
        · exact .inl hw
        · right
          exact hw.trans (by simp)
      sent_le := hsent.trans (by simp)
      mem_eq := by
        show src.bytes m = (s.supplied ++ bs).drop (s.length - s.dataSize.toNat)
        rw [hm, h.mem_eq, drop_append_of_le_length hsent]
      handed_eq := fun data h1 h2 => by
        apply h.handed_eq data h1
        refine List.IsPrefix.trans ?_ h2
        rw [take_append]
        exact prefix_append _ _
      reports := by
        show q.countP (isReport s.ep) + _ = _
        rw [hcount]
        exact h.reports
      waiting := fun h1 h2 h3 => by
        rcases hpost h1 with hp | ⟨rfl, rfl⟩
        · exact absurd hp h3
        · rw [append_nil] at hm
          show (src.bytes m).length < _
          rw [hm]
          exact h.waiting h1 h2 h3 }
  by_cases hc : s.rxReady ∧ s.listening ∧ bs ≠ []
  · rw [if_pos hc]
    apply hkeep
    · simp [isReport_word h.ep_le]
    · intro _
      left
      simp
  · rw [if_neg hc]
    apply hkeep _ rfl
    intro hact
    obtain ⟨hrx, hlis⟩ := h.listening hact
    right
    exact ⟨by_contra fun hne => hc ⟨hrx, hlis, hne⟩, rfl⟩

theorem Inv.leave {s : In σ} (h : Inv src s) (hall : s.length ≤ s.supplied.length) : Inv src { s with
      txReady := false
      queue := if s.txReady ∧ s.listening then s.queue ++ [Kind.closeIn.word s.ep] else s.queue } := by
  have hgone : Inv src { s with txReady := false } := { h with writer := .inr hall }
  have hpost := hgone.post (Kind.closeIn.word s.ep) (by simp [Foreign, decode_word _ h.ep_le])
  by_cases hc : s.txReady ∧ s.listening
  · rw [if_pos hc]
    exact hpost
  · rw [if_neg hc]
    exact hgone

theorem Inv.sent {s : In σ} (h : Inv src s) (hfly : s.flying = true) :
    Inv src { s with flying := false, queue := s.queue ++ [Kind.intIn.word s.ep] } := by
  have hrep := h.reports
  rw [if_pos hfly] at hrep
  exact { h with
    reports := by
      show (s.queue ++ [Kind.intIn.word s.ep]).countP (isReport s.ep) + _ = _
      simpa [isReport_word h.ep_le] using hrep
    waiting := fun h1 h2 h3 => h.waiting h1 h2 fun hm => h3 (mem_append_left _ hm) }

theorem Inv.handle {s : In σ} (h : Inv src s) {evt : UInt32} {q : List UInt32} (hq : s.queue = evt :: q) :
    Inv src ({ s with queue := q }.evtHandler src evt) := by
  have hrep := h.reports
  -- an event of the stream
  have hstream : decode evt ≠ some (s.ep, .intIn) → s.active = true →
      Inv src (if s.idle then onIn src { s with queue := q } else { s with queue := q }) := by
    intro hno hact
    rw [hq, countP_cons_of_neg (by simp [isReport, hno])] at hrep
    by_cases hidle : s.idle = true
    · rw [if_pos hidle]
      simp only [hidle, Bool.true_eq_false, and_false, if_false] at hrep
      have hstill : s.flying = false := by
        by_contra hne
        simp [hne] at hrep
      exact (h.ready hact hstill (by omega)).onIn
    · rw [if_neg hidle]
      exact h.drop hq hno (.inr (.inl (by simpa using hidle)))
  unfold evtHandler
  cases hd : decode evt with
  | none => exact h.drop hq (by simp [hd]) (by simp [hd])
  | some r =>
    obtain ⟨ep, kind⟩ := r
    simp only
    by_cases hours : ep = s.ep ∧ s.active
    · obtain ⟨rfl, hact⟩ := hours
      rw [if_pos ⟨rfl, hact⟩]
      cases kind with
      | closeIn => exact hstream (by simp [hd]) hact
      | streamIn => exact hstream (by simp [hd]) hact
      | intIn =>
        rw [hq, countP_cons_of_pos (by simp [isReport, hd])] at hrep
        have hstill : s.flying = false := by
          by_contra hne
          rw [if_pos (by simpa using hne)] at hrep
          split_ifs at hrep
          omega
        apply Ready.onIn
        apply h.ready hact hstill
        split_ifs at hrep <;> omega
      | intOut => exact h.drop hq (by simp [hd]) (by simp [hd])
      | streamOut => exact h.drop hq (by simp [hd]) (by simp [hd])
      | closeOut => exact h.drop hq (by simp [hd]) (by simp [hd])
    · rw [if_neg hours]
      by_cases hep : ep = s.ep
      · -- the transfer is over, so no packet is out
        subst hep
        have hact : s.active = false := by simpa using hours
        have hno : decode evt ≠ some (s.ep, .intIn) := by
          intro hd'
          rw [hq, countP_cons_of_pos (by simp [isReport, hd']), hact] at hrep
          simp at hrep
        exact h.drop hq hno (.inl hact)
      · exact h.drop hq (by simp [hd, hep]) (by simp [hd, hep])

theorem Inv.step {s s' : In σ} {a : Act} (h : Inv src s) (hst : Step src s a s') : Inv src s' := by
  cases hst with
  | write hm => exact h.write hm
  | leave hall => exact h.leave hall
  | sent hfly => exact h.sent hfly
  | post hevt => exact h.post _ hevt
  | handle hq => exact h.handle hq

theorem Fresh.inv {s : In σ} (h : Fresh src s) (hpos : 0 < s.length) : Inv src (s.epSend src) := by
  obtain ⟨h1, h2, h3⟩ := h.no_history
  have hlen := h.length_eq
  have hdata : s.dataSize ≠ 0 := by
    intro hz
    rw [hz, UInt32.toNat_zero] at hlen
    omega
  have hsub : s.length - s.dataSize.toNat = 0 := by omega
  unfold epSend
  rw [if_pos hdata]
  apply Ready.onIn
  exact {
    ep_le := h.ep_le
    epSize_pos := h.epSize_pos
    length_pos := hpos
    one_flying := h2
    writer := .inl h.writer
    data_le := hlen.ge
    sent_le := by
      show s.length - s.dataSize.toNat ≤ _
      omega
    mem_eq := by
      show src.bytes s.mem = s.supplied.drop (s.length - s.dataSize.toNat)
      rw [hsub, drop_zero, h.supplied_eq]
    asked_eq := fun _ => h.asked_eq.symm
    handed_eq := fun data _ _ => by simp [rest, hdata, h1, hsub]
    finished_eq := h3
    listening := fun _ => ⟨rfl, rfl⟩
    closed := fun ha => nomatch ha
    active := rfl
    still := h.still
    quiet := by
      apply countP_eq_zero.mpr
      intro evt he hrep
      exact h.foreign evt he (of_decide_eq_true hrep)
    idle := fun _ => hdata }

theorem Inv.correct {s : In σ} (h : Inv src s) : Correct src s := by
  have hfin := h.finished_eq
  have hrep := h.reports
  refine ⟨h.one_flying, ?_, ?_, ?_, ?_, ?_⟩
  · intro data h1 h2
    rw [h.handed_eq data h1 h2]
    exact prefix_append _ _
  · cases hact : s.active <;> simp [hfin, hact]
  · intro hone
    have hact : s.active = false := by
      by_contra hne
      simp [hfin, hne] at hone
    obtain ⟨hzero, hzlp⟩ := h.closed hact
    have hall := h.sent_le
    rw [hzero, UInt32.toNat_zero, Nat.sub_zero] at hall
    have hwhole := h.handed_eq (s.supplied.take s.length) (by rw [length_take]; omega) (prefix_refl _)
    refine ⟨hall, by simpa [rest, hzero, hzlp] using hwhole.symm, ?_⟩
    by_contra hne
    simp [hact, hne] at hrep
  · rintro ⟨hall, hhanded, hstill⟩ hquiet
    by_contra hne
    have hact : s.active = true := by
      by_contra ha
      rw [if_neg ha] at hfin
      exact hne hfin
    have hcount : s.queue.countP (isReport s.ep) = 0 := countP_eq_zero.mpr fun evt he => by simp [hquiet evt he]
    have hidle : s.idle = true := by
      by_contra hi
      simp [hcount, hstill, hact, hi] at hrep
    have hzero := h.idle hact hidle
    have hwhole := h.handed_eq (s.supplied.take s.length) (by rw [length_take]; omega) (prefix_refl _)
    rw [← hhanded, rest, if_neg hzero] at hwhole
    exact packets_ne_nil (Nat.one_le_iff_ne_zero.mp h.epSize_pos) _ _ (append_right_eq_self.mp hwhole.symm)
  · intro h0 hstill hqueue
    have hact : s.active = true := by
      by_contra ha
      rw [if_neg ha, h0] at hfin
      cases hfin
    have hidle : s.idle = true := by
      by_contra hi
      simp [hqueue, hstill, hact, hi] at hrep
    exact h.waiting hact hidle (by simp [hqueue])

/-! ### Empty transfers -/

/-- What every step keeps of an empty transfer that asks for no packet of its
own. -/
structure Empty (s : In σ) : Prop where
  ep_le : s.ep ≤ 15
  length_eq : s.length = 0
  asked_eq : s.asked = false
  data_eq : s.dataSize = 0
  zlp_eq : s.zlp = false
  one_flying : s.clash = false
  handed_eq : s.handed = [[]]
  finished_eq : s.finished = if s.active then 0 else 1
  reports : s.active = true → s.queue.countP (isReport s.ep) + (if s.flying then 1 else 0) = 1
  still : s.active = false → s.flying = false

theorem Empty.onIn {s : In σ} (h : Empty s) (q : List UInt32) (hact : s.active = true) (hstill : s.flying = false) :
    Empty (In.onIn src { s with queue := q }) := by
  have hfin := h.finished_eq
  rw [if_pos hact] at hfin
  unfold In.onIn
  rw [if_neg (not_not.mpr h.data_eq), if_neg (by simp [h.zlp_eq])]
  exact { h with
    finished_eq := by simp [cancelSend, hfin]
    reports := fun ha => nomatch ha
    still := fun _ => hstill }

theorem Empty.post {s : In σ} (h : Empty s) (evt : UInt32) (hevt : Foreign s.ep evt) :
    Empty { s with queue := s.queue ++ [evt] } := by
  have hno : isReport s.ep evt = false := decide_eq_false hevt
  exact { h with
    reports := fun ha => by
      show (s.queue ++ [evt]).countP (isReport s.ep) + _ = 1
      simpa [hno] using h.reports ha }

theorem Empty.step {s s' : In σ} {a : Act} (h : Empty s) (hst : Step src s a s') (hm : Meets s a) : Empty s' := by
  have hmeets := (hm.resolve_left (by rw [h.length_eq]; exact lt_irrefl 0)).2
  cases hst with
  | @write bs m hmem =>
    have hkeep : Empty { s with mem := m, supplied := s.supplied ++ bs } := { h with }
    by_cases hc : s.rxReady ∧ s.listening ∧ bs ≠ []
    · rw [if_pos hc]
      exact hkeep.post (Kind.streamIn.word s.ep) (by simp [Foreign, decode_word _ h.ep_le])
    · rw [if_neg hc]
      exact hkeep
  | leave hall =>
    have hkeep : Empty { s with txReady := false } := { h with }
    by_cases hc : s.txReady ∧ s.listening
    · rw [if_pos hc]
      exact hkeep.post (Kind.closeIn.word s.ep) (by simp [Foreign, decode_word _ h.ep_le])
    · rw [if_neg hc]
      exact hkeep
  | sent hfly =>
    exact { h with
      reports := fun ha => by
        have hrep := h.reports ha
        rw [if_pos hfly] at hrep
        show (s.queue ++ [Kind.intIn.word s.ep]).countP (isReport s.ep) + _ = _
        simpa [isReport_word h.ep_le] using hrep
      still := fun _ => rfl }
  | post hevt => exact h.post _ hevt
  | @handle evt q hq =>
    have hdrop : decode evt ≠ some (s.ep, .intIn) ∨ s.active = false → Empty { s with queue := q } := by
      intro hor
      exact { h with
        reports := fun ha => by
          have hrep := h.reports ha
          rcases hor with hno | hno
          · rwa [hq, countP_cons_of_neg (by simp [isReport, hno])] at hrep
          · exact absurd (hno.symm.trans ha) (by simp) }
    have hstream : decode evt = some (s.ep, .streamIn) ∨ decode evt = some (s.ep, .closeIn) → s.active = true →
        Empty (if s.idle then In.onIn src { s with queue := q } else { s with queue := q }) := by
      intro hor hact
      have hpop := hdrop (.inl (by rcases hor with hd | hd <;> simp [hd]))
      have hstill : s.flying = false := by
        by_contra hne
        obtain ⟨h1, h2⟩ := hmeets evt q rfl hq (by simpa using hne)
        rcases hor with hd | hd
        · exact h1 hd
        · exact h2 hd
      by_cases hidle : s.idle = true
      · rw [if_pos hidle]
        exact h.onIn q hact hstill
      · rw [if_neg hidle]
        exact hpop
    unfold evtHandler
    cases hd : decode evt with
    | none => exact hdrop (.inl (by simp [hd]))
    | some r =>
      obtain ⟨ep, kind⟩ := r
      simp only
      by_cases hours : ep = s.ep ∧ s.active
      · obtain ⟨rfl, hact⟩ := hours
        rw [if_pos ⟨rfl, hact⟩]
        cases kind with
        | closeIn => exact hstream (.inr hd) hact
        | streamIn => exact hstream (.inl hd) hact
        | intIn =>
          have hrep := h.reports hact
          rw [hq, countP_cons_of_pos (by simp [isReport, hd])] at hrep
          have hstill : s.flying = false := by
            by_contra hne
            rw [if_pos (by simpa using hne)] at hrep
            omega
          exact h.onIn q hact hstill
        | intOut => exact hdrop (.inl (by simp [hd]))
        | streamOut => exact hdrop (.inl (by simp [hd]))
        | closeOut => exact hdrop (.inl (by simp [hd]))
      · rw [if_neg hours]
        by_cases hep : ep = s.ep
        · exact hdrop (.inr (by simpa [hep] using hours))
        · exact hdrop (.inl (by simp [hd, hep]))

theorem Fresh.empty {s : In σ} (h : Fresh src s) (hlen : s.length = 0) (hasked : s.asked = false) :
    Empty (s.epSend src) := by
  obtain ⟨h1, h2, h3⟩ := h.no_history
  have hzero : s.dataSize = 0 := UInt32.toNat_inj.mp (h.length_eq.symm.trans hlen)
  unfold epSend
  rw [if_neg (not_not.mpr hzero)]
  exact {
    ep_le := h.ep_le
    length_eq := hlen
    asked_eq := hasked
    data_eq := hzero
    zlp_eq := h.asked_eq.symm.trans hasked
    one_flying := by simp [hand, h2, h.still]
    handed_eq := by simp [hand, h1]
    finished_eq := h3
    reports := fun _ => by
      have hquiet : s.queue.countP (isReport s.ep) = 0 :=
        countP_eq_zero.mpr fun evt he hrep => h.foreign evt he (of_decide_eq_true hrep)
      show s.queue.countP (isReport s.ep) + 1 = 1
      rw [hquiet]
    still := fun ha => nomatch ha }

theorem Empty.correct {s : In σ} (h : Empty s) : Correct src s := by
  have hfin := h.finished_eq
  have hone : packets s.epSize.toNat s.asked [] = [[]] := by simp [packets, split_nil]
  refine ⟨h.one_flying, ?_, ?_, ?_, ?_, ?_⟩
  · intro data hdata _
    obtain rfl := eq_nil_of_length_eq_zero (hdata.trans h.length_eq)
    rw [hone, h.handed_eq]
  · cases hact : s.active <;> simp [hfin, hact]
  · intro h1
    have hact : s.active = false := by
      by_contra hne
      simp [hfin, hne] at h1
    exact ⟨by simp [h.length_eq], by rw [h.length_eq, take_zero, hone, h.handed_eq], h.still hact⟩
  · rintro ⟨-, -, hstill⟩ hquiet
    by_contra hne
    have hact : s.active = true := by
      by_contra ha
      rw [if_neg ha] at hfin
      exact hne hfin
    have hrep := h.reports hact
    rw [countP_eq_zero.mpr fun evt he => by simp [hquiet evt he], hstill] at hrep
    cases hrep
  · intro h0 hstill hqueue
    have hact : s.active = true := by
      by_contra ha
      rw [if_neg ha, h0] at hfin
      cases hfin
    have hrep := h.reports hact
    rw [hqueue, hstill] at hrep
    cases hrep

/-- An empty transfer's packet has not been sent when `vsfusbd_ep_send` returns. -/
theorem Fresh.correct {s : In σ} (h : Fresh src s) (hlen : s.length = 0) : Correct src (s.epSend src) := by
  obtain ⟨h1, h2, h3⟩ := h.no_history
  have hzero : s.dataSize = 0 := UInt32.toNat_inj.mp (h.length_eq.symm.trans hlen)
  unfold epSend
  rw [if_neg (not_not.mpr hzero)]
  exact {
    one_flying := by simp [hand, h2, h.still]
    in_order := fun data hdata _ => by
      obtain rfl := eq_nil_of_length_eq_zero (hdata.trans hlen)
      simp [hand, h1, packets, split_nil]
    finished := .inl h3
    sent := fun hone => absurd (h3.symm.trans hone) (by simp)
    ended := fun hsent => nomatch hsent.2.2
    writer := fun _ hstill => nomatch hstill }

/-! ### The result -/

/-- Three bytes over an endpoint of two. -/
def threeBytes : In { f : Fifo // f.Inv } where
  ep := 1
  epSize := 2
  dataSize := 3
  zlp := true
  idle := false
  active := false
  mem := ⟨⟨fun i => UInt8.ofNat (i + 5), 8, 3, 0⟩, by decide, by decide⟩
  txReady := true
  rxReady := false
  listening := false
  flying := false
  queue := []
  handed := []
  clash := false
  finished := 0
  supplied := [5, 6, 7]
  length := 3
  asked := true

/-- An empty transfer over endpoint 1, an earlier transfer's event in the queue. -/
def noBytes : In { f : Fifo // f.Inv } where
  ep := 1
  epSize := 2
  dataSize := 0
  zlp := false
  idle := false
  active := false
  mem := ⟨⟨fun _ => 0, 8, 0, 0⟩, by decide, by decide⟩
  txReady := true
  rxReady := false
  listening := false
  flying := false
  queue := [Kind.streamIn.word 1]
  handed := []
  clash := false
  finished := 0
  supplied := []
  length := 0
  asked := false

end In

end Vsf.Usbd
