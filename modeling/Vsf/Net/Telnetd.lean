/-
# Telnet sessions

A slot has two protothreads on one socket. The receive thread writes what `vsfip_tcp_recv` brings to
`stream_rx`; the transmit thread sends `stream_tx`, and closes the socket and gives the slot back
when `disconnect` is set. A failed `vsfip_tcp_send` sets it too, and the receive thread is not ended
(`torn_while_receiving`); without that everything is in order (`sessions_hold`). Not covered: a
delay that gets no timer.
-/
import Mathlib
import Vsf.Lib.System

namespace Vsf
namespace Telnetd

open List Option

/-- A buffer: which one it is, and its `app` bytes. -/
structure Buf where
  id : ℕ
  data : List UInt8

/-- `struct vsfsm_sem_t` with its one thread: whether it waits, and its event was posted. -/
structure Sem where
  value : UInt32
  waiting : Bool
  posted : Bool

namespace Sem

/-- `vsfsm_sem_init`. -/
def init : Sem := ⟨0, false, false⟩

/-- `vsfsm_sem_post`. -/
def post (m : Sem) : Sem :=
  if m.waiting then { m with waiting := false, posted := true }
  else if m.value < 0xFFFFFFFF then { m with value := m.value + 1 }
  else m

/-- `vsfsm_sem_pend`; `true` is `VSFERR_NONE`. -/
def pend (m : Sem) : Bool × Sem :=
  if m.value > 0 then (true, { m with value := m.value - 1 }) else (false, { m with waiting := true })

/-- The event is there. -/
def take (m : Sem) : Sem := { m with posted := false }

end Sem

/-- Where the transmit thread is: at the loop's test, at `retry_alloc_buf`, in a call, or waiting. -/
inductive TxPc
  | ended
  | start
  | loop
  | streamIn
  | alloc
  | delay
  | sending
  | closing
deriving DecidableEq

/-- Where the receive thread is. -/
inductive RxPc
  | ended
  | start
  | loop
  | receiving
  | writing
  | streamOut
deriving DecidableEq

/-- What happens to it: it goes on, its event arrives, a buffer is there or not with what `stream_read`
returned, or the call returns. -/
inductive TxRet
  | go
  | event
  | buf (count : Option ℕ)
  | send (err : Int)
  | close (err : Int)

/-- What happens to the receive thread; `wrote` is what `stream_write` returned. -/
inductive RxRet
  | go
  | event
  | recv (err : Int) (data : List UInt8)
  | wrote (count : ℕ)

/-- `struct vsfip_telnetd_session_t` with its streams' bytes: the connection `so`, if it was closed, used
after that (`late`), or its slot given away with a thread running (`reused`); the buffers by number, and
those released or handed over; the bytes received, written, read and sent. -/
structure Session where
  connected : Bool
  disconnect : Bool
  so : ℕ
  closed : Bool
  late : Bool
  reused : Bool
  txSem : Sem
  rxSem : Sem
  streamTx : List UInt8
  streamRx : List UInt8
  txPc : TxPc
  rxPc : RxPc
  inbuf : Option Buf
  fresh : ℕ
  gone : List ℕ
  received : List UInt8
  written : List UInt8
  fetched : List UInt8
  handed : List UInt8

namespace Session

variable (s : Session)

/-- A call with `session->so`. -/
def use : Session := { s with late := s.late || s.closed }

/-- `vsfip_telnetd_session_stream_on_in`. -/
def onIn : Session := { s with txSem := s.txSem.post }

/-- `vsfip_telnetd_session_stream_on_out`. -/
def onOut : Session := { s with rxSem := s.rxSem.post }

/-- The slot gets the connection `so`. -/
def connect (so : ℕ) : Session := { s with
  connected := true
  disconnect := false
  so := so
  closed := false
  reused := s.reused || decide (s.txPc ≠ .ended ∨ s.rxPc ≠ .ended)
  txSem := .init
  rxSem := .init
  txPc := .start
  rxPc := .start
  received := []
  written := []
  fetched := []
  handed := [] }

/-- The loop of the transmit thread. -/
def txLoop : Session :=
  if s.disconnect then { s with txPc := .closing }
  else if s.streamTx.length = 0 then
    let r := s.txSem.pend
    if r.1 then { s with txSem := r.2, txPc := .alloc } else { s with txSem := r.2, txPc := .streamIn }
  else { s with txPc := .alloc }

/-- A wait is over; `pc` is where the thread goes on. -/
def txWake (pc : TxPc) : Session := if s.disconnect then { s with txPc := .closing } else { s with txPc := pc }

/-- `stream_read` into a new buffer, which is sent or released. -/
def fetch (count : ℕ) : Session :=
  let bytes := s.streamTx.take count
  let s : Session := { s with streamTx := s.streamTx.drop count, fetched := s.fetched ++ bytes, fresh := s.fresh + 1 }
  let s : Session := { s with gone := s.gone ++ [s.fresh - 1] }
  if bytes = [] then { s with txPc := .loop }
  else { s.use with handed := s.handed ++ bytes, txPc := .sending }

/-- `vsfip_telnetd_session_tx_thread`, from one wait to the next. -/
def tx : TxRet → Session
  | .go => if s.txPc = .start then { s with txPc := .loop } else s.txLoop
  | .event =>
    if s.txPc = .streamIn then { s with txSem := s.txSem.take }.txWake .loop
    else s.txWake .alloc
  | .buf none => { s with txPc := .delay }
  | .buf (some count) => s.fetch count
  | .send err =>
    let s := s.use
    if err > 0 then s
    else if err < 0 then { s with disconnect := true, txPc := .loop }
    else { s with txPc := .loop }
  | .close err =>
    let s := s.use
    if err > 0 then s
    else { s with closed := true, connected := false, txPc := .ended }

/-- The loop of the receive thread. -/
def rxLoop : Session := if s.disconnect then { s with rxPc := .ended } else { s with rxPc := .receiving }

/-- The end of the inner loop. -/
def release : Session :=
  { s with gone := s.gone ++ s.inbuf.toList.map Buf.id, inbuf := none, rxPc := .loop }

/-- `stream_write` of what is left of `b`, which took `count` bytes. -/
def write (b : Buf) (count : ℕ) : Session :=
  let s : Session := { s with
    streamRx := s.streamRx ++ b.data.take count
    written := s.written ++ b.data.take count
    inbuf := some { b with data := b.data.drop count } }
  if count = 0 then
    let r := s.rxSem.pend
    if r.1 then { s with rxSem := r.2, rxPc := .writing } else { s with rxSem := r.2, rxPc := .streamOut }
  else { s with rxPc := .writing }

/-- `vsfip_telnetd_session_rx_thread`, from one wait to the next. -/
def rx : RxRet → Session
  | .go =>
    match s.rxPc with
    | .start => { s with rxPc := .loop }
    | .loop => s.rxLoop
    | _ => s.release
  | .event => { s with rxSem := s.rxSem.take, rxPc := .writing }
  | .recv err data =>
    let s := s.use
    if err > 0 then s
    else if err < 0 then { s with disconnect := true, rxPc := .ended }.onIn
    else { s with inbuf := some ⟨s.fresh, data⟩, fresh := s.fresh + 1, received := s.received ++ data, rxPc := .writing }
  | .wrote count =>
    match s.inbuf with
    | some b => s.write b count
    | none => s

/-- What can happen to the transmit thread where it is. -/
def TxLegal : TxRet → Prop
  | .go => s.txPc = .start ∨ s.txPc = .loop
  | .event => s.txPc = .streamIn ∧ s.txSem.posted ∨ s.txPc = .delay
  | .buf _ => s.txPc = .alloc
  | .send _ => s.txPc = .sending
  | .close _ => s.txPc = .closing

/-- What can happen to the receive thread: an empty buffer is released, of another one what fits is taken. -/
def RxLegal : RxRet → Prop
  | .go => s.rxPc = .start ∨ s.rxPc = .loop ∨ s.rxPc = .writing ∧ ∀ b ∈ s.inbuf, b.data = []
  | .event => s.rxPc = .streamOut ∧ s.rxSem.posted
  | .recv _ _ => s.rxPc = .receiving
  | .wrote count => s.rxPc = .writing ∧ ∀ b ∈ s.inbuf, b.data ≠ [] ∧ count ≤ b.data.length

/-- **The session is right**: the bytes written are those received, but for what is left of `inbuf`; those
handed over are those read; every buffer is gone once, or is `inbuf`; nothing closed is used, and the slot
was given away only when both threads had ended. -/
structure Right : Prop where
  received : s.received = s.written ++ (s.inbuf.toList.map Buf.data).flatten
  handed : s.handed = s.fetched
  once : ∀ k, s.gone.count k + (s.inbuf.toList.map Buf.id).count k = if k < s.fresh then 1 else 0
  late : s.late = false
  reused : s.reused = false

end Session

/-- `struct vsfip_telnetd_t`: its slots, and how many connections it accepted. -/
structure Server where
  sessions : List Session
  accepted : ℕ

/-- The loop of `vsfip_telnetd_thread` that looks for a slot. -/
def assign (so : ℕ) : List Session → List Session
  | [] => []
  | s :: ss => if s.connected then s :: assign so ss else s.connect so :: ss

/-- A connection is accepted, a user writes or reads a slot's stream, or a thread of a slot goes on. -/
inductive Op
  | accept
  | put (i : ℕ) (bytes : List UInt8)
  | get (i : ℕ) (count : ℕ)
  | tx (i : ℕ) (r : TxRet)
  | rx (i : ℕ) (r : RxRet)

namespace Server

variable (t : Server)

def onSession (i : ℕ) (f : Session → Session) : Server := { t with sessions := t.sessions.modify i f }

def step : Op → Server
  | .accept => { sessions := assign t.accepted t.sessions, accepted := t.accepted + 1 }
  | .put i bytes => t.onSession i fun s => { s with streamTx := s.streamTx ++ bytes }.onIn
  | .get i count => t.onSession i fun s => { s with streamRx := s.streamRx.drop count }.onOut
  | .tx i r => t.onSession i fun s => s.tx r
  | .rx i r => t.onSession i fun s => s.rx r

def Legal : Op → Prop
  | .tx i r => ∀ s ∈ t.sessions[i]?, s.TxLegal r
  | .rx i r => ∀ s ∈ t.sessions[i]?, s.RxLegal r
  | _ => True

end Server

/-- A slot nobody has used. -/
structure Unused (s : Session) : Prop where
  connected : s.connected = false
  late : s.late = false
  reused : s.reused = false
  txPc : s.txPc = .ended
  rxPc : s.rxPc = .ended
  inbuf : s.inbuf = none
  fresh : s.fresh = 0
  gone : s.gone = []
  received : s.received = s.written
  handed : s.handed = s.fetched

/-- All runs of a server. -/
def system : System Server Op where
  start t := ∀ s ∈ t.sessions, Unused s
  step t op t' := t.Legal op ∧ t' = t.step op

/-- The transmit thread closes the socket only when the receive thread has ended. -/
def Orderly (t : Server) : Op → Prop
  | .tx i (.close err) => err ≤ 0 → ∀ s ∈ t.sessions[i]?, s.rxPc = .ended
  | _ => True

/-! ### One session -/

/-- What holds of a session when no socket is closed under the receive thread. -/
structure Inv (s : Session) : Prop extends s.Right where
  inbuf : s.inbuf.isSome ↔ s.rxPc = .writing ∨ s.rxPc = .streamOut
  connected : s.connected = false → s.txPc = .ended ∧ s.rxPc = .ended
  closed : s.closed = true → s.txPc = .ended ∧ s.rxPc = .ended

variable {s s' : Session}

/-- What the accounts of a session read. -/
def Session.account (s : Session) :=
  (s.received, s.written, s.inbuf, s.handed, s.fetched, s.gone, s.fresh, s.late, s.reused)

theorem Inv.running (hi : Inv s) (h : s.txPc ≠ .ended ∨ s.rxPc ≠ .ended) : s.connected = true ∧ s.closed = false := by
  constructor
  · by_contra hc
    obtain ⟨ht, hr⟩ := hi.connected (by simpa using hc)
    simp [ht, hr] at h
  · by_contra hc
    obtain ⟨ht, hr⟩ := hi.closed (by simpa using hc)
    simp [ht, hr] at h

theorem Session.Right.of_account (h : s.Right) (ha : s'.account = s.account) : s'.Right := by
  simp only [Session.account, Prod.mk.injEq] at ha
  obtain ⟨h1, h2, h3, h4, h5, h6, h7, h8, h9⟩ := ha
  constructor
  · rw [h1, h2, h3]
    exact h.received
  · rw [h4, h5]
    exact h.handed
  · rw [h3, h6, h7]
    exact h.once
  · rw [h8]
    exact h.late
  · rw [h9]
    exact h.reused

/-- The accounts stay, and the connection is as open as it was. -/
theorem Inv.of_account (hi : Inv s) (hrun : s.txPc ≠ .ended ∨ s.rxPc ≠ .ended) (ha : s'.account = s.account)
    (hc : s'.connected = s.connected) (hcl : s'.closed = s.closed)
    (hrx : s'.rxPc = .writing ∨ s'.rxPc = .streamOut ↔ s.rxPc = .writing ∨ s.rxPc = .streamOut) : Inv s' := by
  obtain ⟨h1, h2⟩ := hi.running hrun
  have hin : s'.inbuf = s.inbuf := congrArg (fun p => p.2.2.1) ha
  refine ⟨hi.toRight.of_account ha, ?_, fun h => ?_, fun h => ?_⟩
  · rw [hin, hrx]
    exact hi.inbuf
  · rw [hc, h1] at h
    cases h
  · rw [hcl, h2] at h
    cases h

theorem Inv.use (hi : Inv s) (hrun : s.txPc ≠ .ended ∨ s.rxPc ≠ .ended) : s.use = s := by
  obtain ⟨-, h2⟩ := hi.running hrun
  have hlate : (s.late || s.closed) = s.late := by simp [h2]
  unfold Session.use
  rw [hlate]

theorem once_append {gone held : List ℕ} {n : ℕ} (h : ∀ k, gone.count k + held.count k = if k < n then 1 else 0) (k : ℕ) :
    (gone ++ [n]).count k + held.count k = if k < n + 1 then 1 else 0 := by
  have hk := h k
  rw [count_append, count_singleton]
  by_cases hn : k = n
  · subst hn
    simp at hk ⊢
    omega
  · have hlt : k < n + 1 ↔ k < n := by omega
    simp only [beq_iff_eq, hlt]
    rw [if_neg (by omega)]
    omega

theorem Inv.fetch (hi : Inv s) (hpc : s.txPc = .alloc) (count : ℕ) : Inv (s.fetch count) := by
  have hrun : s.txPc ≠ .ended ∨ s.rxPc ≠ .ended := .inl (by simp [hpc])
  obtain ⟨h1, h2⟩ := hi.running hrun
  unfold Session.fetch Session.use
  dsimp only
  split_ifs with hb
  · refine ⟨⟨hi.received, ?_, once_append hi.once, hi.late, hi.reused⟩, hi.inbuf, ?_, ?_⟩
    · simp [hb, hi.handed]
    · simp [h1]
    · simp [h2]
  · refine ⟨⟨hi.received, ?_, once_append hi.once, ?_, hi.reused⟩, hi.inbuf, ?_, ?_⟩
    · simp [hi.handed]
    · simp [hi.late, h2]
    · simp [h1]
    · simp [h2]

/-- **A step of the transmit thread.** -/
theorem Inv.tx (hi : Inv s) {r : TxRet} (hl : s.TxLegal r) (ho : ∀ err, r = .close err → err ≤ 0 → s.rxPc = .ended) :
    Inv (s.tx r) := by
  have hrun : s.txPc ≠ .ended ∨ s.rxPc ≠ .ended := by
    left
    intro he
    cases r <;> simp [Session.TxLegal, he] at hl
  have huse := hi.use hrun
  cases r with
  | go =>
    unfold Session.tx Session.txLoop
    dsimp only
    split_ifs <;> exact hi.of_account hrun rfl rfl rfl Iff.rfl
  | event =>
    unfold Session.tx Session.txWake
    split_ifs <;> exact hi.of_account hrun rfl rfl rfl Iff.rfl
  | buf count =>
    cases count with
    | none => exact hi.of_account hrun rfl rfl rfl Iff.rfl
    | some count => exact hi.fetch hl count
  | send err =>
    unfold Session.tx
    dsimp only
    rw [huse]
    split_ifs
    · exact hi
    · exact hi.of_account hrun rfl rfl rfl Iff.rfl
    · exact hi.of_account hrun rfl rfl rfl Iff.rfl
  | close err =>
    unfold Session.tx
    dsimp only
    rw [huse]
    split_ifs with herr
    · exact hi
    · have hended := ho err rfl (by omega)
      exact ⟨hi.toRight.of_account rfl, hi.inbuf, fun _ => ⟨rfl, hended⟩, fun _ => ⟨rfl, hended⟩⟩

theorem once_get {gone : List ℕ} {n : ℕ} (h : ∀ k, gone.count k + ([] : List ℕ).count k = if k < n then 1 else 0) (k : ℕ) :
    gone.count k + [n].count k = if k < n + 1 then 1 else 0 := by
  have hk := once_append h k
  rw [count_append] at hk
  simpa using hk

theorem Inv.write (hi : Inv s) (hpc : s.rxPc = .writing) {b : Buf} (hb : s.inbuf = some b) (count : ℕ) :
    Inv (s.write b count) := by
  have hrun : s.txPc ≠ .ended ∨ s.rxPc ≠ .ended := .inr (by simp [hpc])
  obtain ⟨h1, h2⟩ := hi.running hrun
  have hrec := hi.received
  have honce := hi.once
  rw [hb] at hrec honce
  have hrec' : s.received = (s.written ++ b.data.take count) ++ b.data.drop count := by
    rw [append_assoc, take_append_drop]
    simpa using hrec
  have hright : ∀ s' : Session, s'.account = (s.received, s.written ++ b.data.take count,
      some { b with data := b.data.drop count }, s.handed, s.fetched, s.gone, s.fresh, s.late, s.reused) → s'.Right := by
    intro s' ha
    simp only [Session.account, Prod.mk.injEq] at ha
    obtain ⟨e1, e2, e3, e4, e5, e6, e7, e8, e9⟩ := ha
    constructor
    · rw [e1, e2, e3]
      simpa using hrec'
    · rw [e4, e5]
      exact hi.handed
    · rw [e3, e6, e7]
      exact honce
    · rw [e8]
      exact hi.late
    · rw [e9]
      exact hi.reused
  unfold Session.write
  dsimp only
  split_ifs <;> exact ⟨hright _ rfl, by simp, by simp [h1], by simp [h2]⟩

/-- **A step of the receive thread.** -/
theorem Inv.rx (hi : Inv s) {r : RxRet} (hl : s.RxLegal r) : Inv (s.rx r) := by
  have hrun : s.txPc ≠ .ended ∨ s.rxPc ≠ .ended := by
    right
    intro he
    cases r <;> simp [Session.RxLegal, he] at hl
  have huse := hi.use hrun
  obtain ⟨h1, h2⟩ := hi.running hrun
  -- a thread that has no buffer goes on without one
  have hidle : ∀ s' : Session, ¬ (s.rxPc = .writing ∨ s.rxPc = .streamOut) → s'.account = s.account →
      s'.connected = s.connected → s'.closed = s.closed → ¬ (s'.rxPc = .writing ∨ s'.rxPc = .streamOut) → Inv s' :=
    fun s' hn ha hc hcl hn' => hi.of_account hrun ha hc hcl (iff_of_false hn' hn)
  cases r with
  | go =>
    unfold Session.rx Session.rxLoop Session.release
    rcases hl with hpc | hpc | ⟨hpc, hempty⟩
    · rw [hpc]
      exact hidle _ (by simp [hpc]) rfl rfl rfl (by simp)
    · rw [hpc]
      split_ifs <;> exact hidle _ (by simp [hpc]) rfl rfl rfl (by simp)
    · rw [hpc]
      obtain ⟨b, hb⟩ := isSome_iff_exists.mp (hi.inbuf.mpr (.inl hpc))
      have hrec := hi.received
      have honce := hi.once
      rw [hb] at hrec honce
      refine ⟨⟨?_, hi.handed, fun k => ?_, hi.late, hi.reused⟩, by simp, by simp [h1], by simp [h2]⟩
      · simpa [hempty b hb] using hrec
      · have hk := honce k
        simpa [hb, count_append] using hk
  | event =>
    refine hi.of_account hrun rfl rfl rfl ?_
    simp [Session.rx, hl.1]
  | recv err data =>
    have hpc : s.rxPc = .receiving := hl
    unfold Session.rx
    dsimp only
    rw [huse]
    split_ifs
    · exact hi
    · exact hidle _ (by simp [hpc]) rfl rfl rfl (by simp [Session.onIn])
    · have hnone : s.inbuf = none := by
        rw [← not_isSome_iff_eq_none, hi.inbuf]
        simp [hpc]
      have hrec := hi.received
      have honce := hi.once
      rw [hnone] at hrec honce
      refine ⟨⟨?_, hi.handed, once_get honce, hi.late, hi.reused⟩, by simp, by simp [h1], by simp [h2]⟩
      simpa using hrec
  | wrote count =>
    obtain ⟨b, hb⟩ := isSome_iff_exists.mp (hi.inbuf.mpr (.inl hl.1))
    unfold Session.rx
    rw [hb]
    exact hi.write hl.1 hb count

theorem Inv.connect (hi : Inv s) (hc : s.connected = false) (so : ℕ) : Inv (s.connect so) := by
  obtain ⟨ht, hr⟩ := hi.connected hc
  have hnone : s.inbuf = none := by
    rw [← not_isSome_iff_eq_none, hi.inbuf]
    simp [hr]
  have honce := hi.once
  rw [hnone] at honce
  refine ⟨⟨?_, rfl, ?_, hi.late, ?_⟩, ?_, ?_, ?_⟩
  · simp [Session.connect, hnone]
  · simp only [Session.connect, hnone]
    exact honce
  · simp [Session.connect, hi.reused, ht, hr]
  · simp [Session.connect, hnone]
  · simp [Session.connect]
  · simp [Session.connect]

/-! ### Every run -/

theorem assign_inv (so : ℕ) : ∀ ss : List Session, (∀ s ∈ ss, Inv s) → ∀ s ∈ assign so ss, Inv s
  | [], _ => by simp [assign]
  | s :: ss, h => by
    have hs := h s mem_cons_self
    have hss := fun x hx => h x (mem_cons_of_mem s hx)
    unfold assign
    split_ifs with hc
    · intro x hx
      rcases mem_cons.mp hx with rfl | hx
      · exact hs
      · exact assign_inv so ss hss x hx
    · intro x hx
      rcases mem_cons.mp hx with rfl | hx
      · exact hs.connect (by simpa using hc) so
      · exact hss x hx

theorem modify_inv {ss : List Session} {i : ℕ} {f : Session → Session} (h : ∀ s ∈ ss, Inv s)
    (hf : ∀ s, ss[i]? = some s → Inv s → Inv (f s)) : ∀ s ∈ ss.modify i f, Inv s := by
  intro s hs
  obtain ⟨j, hj⟩ := mem_iff_getElem?.mp hs
  rw [getElem?_modify] at hj
  obtain ⟨x, hx, rfl⟩ := map_eq_some_iff.mp hj
  have hmem := h x (mem_of_getElem? hx)
  split_ifs with hij
  · subst hij
    exact hf x hx hmem
  · exact hmem

theorem Unused.inv (h : Unused s) : Inv s := by
  refine ⟨⟨?_, h.handed, ?_, h.late, h.reused⟩, ?_, fun _ => ⟨h.txPc, h.rxPc⟩, fun _ => ⟨h.txPc, h.rxPc⟩⟩
  · simp [h.inbuf, h.received]
  · simp [h.inbuf, h.gone, h.fresh]
  · simp [h.inbuf, h.rxPc]

theorem Inv.of_streams (hi : Inv s) (ha : s'.account = s.account) (hc : s'.connected = s.connected)
    (hcl : s'.closed = s.closed) (ht : s'.txPc = s.txPc) (hr : s'.rxPc = s.rxPc) : Inv s' := by
  have hin : s'.inbuf = s.inbuf := congrArg (fun p => p.2.2.1) ha
  refine ⟨hi.toRight.of_account ha, ?_, ?_, ?_⟩
  · rw [hin, hr]
    exact hi.inbuf
  · rw [hc, ht, hr]
    exact hi.connected
  · rw [hcl, ht, hr]
    exact hi.closed

/-- **Every orderly run keeps its sessions right.** -/
theorem sessions_hold {t : Server} (hr : (system.restrict Orderly).Reach t) : ∀ s ∈ t.sessions, s.Right := by
  have hinv : ∀ s ∈ t.sessions, Inv s := by
    refine hr.invariant (fun t h s hs => (h s hs).inv) ?_
    rintro t op t' - hi ⟨ho, hl, rfl⟩
    cases op with
    | accept => exact assign_inv _ _ hi
    | put i bytes => exact modify_inv hi fun s _ h => h.of_streams rfl rfl rfl rfl rfl
    | get i count => exact modify_inv hi fun s _ h => h.of_streams rfl rfl rfl rfl rfl
    | tx i r =>
      refine modify_inv hi fun s hs h => h.tx (hl s hs) ?_
      rintro err rfl herr
      exact ho herr s hs
    | rx i r => exact modify_inv hi fun s hs h => h.rx (hl s hs)
  exact fun s hs => (hinv s hs).toRight

/-! ### A run that is not orderly -/

instance (s : Session) (r : TxRet) : Decidable (s.TxLegal r) :=
  match r with
  | .go => inferInstanceAs (Decidable (_ ∨ _))
  | .event => inferInstanceAs (Decidable (_ ∧ _ ∨ _))
  | .buf _ => inferInstanceAs (Decidable (_ = _))
  | .send _ => inferInstanceAs (Decidable (_ = _))
  | .close _ => inferInstanceAs (Decidable (_ = _))

instance (s : Session) (r : RxRet) : Decidable (s.RxLegal r) :=
  match r with
  | .go => inferInstanceAs (Decidable (_ ∨ _ ∨ _ ∧ ∀ b ∈ s.inbuf, b.data = []))
  | .event => inferInstanceAs (Decidable (_ ∧ _))
  | .recv _ _ => inferInstanceAs (Decidable (_ = _))
  | .wrote count => inferInstanceAs (Decidable (_ ∧ ∀ b ∈ s.inbuf, b.data ≠ [] ∧ count ≤ b.data.length))

instance (t : Server) (op : Op) : Decidable (t.Legal op) :=
  match op with
  | .tx i r => inferInstanceAs (Decidable (∀ s ∈ t.sessions[i]?, s.TxLegal r))
  | .rx i r => inferInstanceAs (Decidable (∀ s ∈ t.sessions[i]?, s.RxLegal r))
  | .accept => .isTrue trivial
  | .put _ _ => .isTrue trivial
  | .get _ _ => .isTrue trivial

instance (t : Server) (op : Op) : Decidable (Orderly t op) :=
  match op with
  | .tx i (.close err) => inferInstanceAs (Decidable (err ≤ 0 → ∀ s ∈ t.sessions[i]?, s.rxPc = .ended))
  | .tx _ .go | .tx _ .event | .tx _ (.buf _) | .tx _ (.send _) => .isTrue trivial
  | .rx _ _ | .accept | .put _ _ | .get _ _ => .isTrue trivial

/-- Each of the steps can happen, and meets the condition. -/
def Server.Legals (c : Server → Op → Prop) : Server → List Op → Prop
  | _, [] => True
  | t, op :: ops => (c t op ∧ t.Legal op) ∧ Legals c (t.step op) ops

instance decidableLegals (c : Server → Op → Prop) [∀ t op, Decidable (c t op)] :
    ∀ (t : Server) (ops : List Op), Decidable (t.Legals c ops)
  | _, [] => .isTrue trivial
  | t, op :: ops =>
    have : Decidable ((t.step op).Legals c ops) := decidableLegals c (t.step op) ops
    inferInstanceAs (Decidable ((_ ∧ _) ∧ _))

theorem legals_reach {c : Server → Op → Prop} {t : Server} (hr : (system.restrict c).Reach t) :
    ∀ ops : List Op, t.Legals c ops → (system.restrict c).Reach (ops.foldl Server.step t)
  | [], _ => hr
  | _ :: ops, ⟨⟨hc, hop⟩, hops⟩ => legals_reach (hr.step ⟨hc, hop, rfl⟩) ops hops

/-- One slot, nothing in the streams. -/
def idle : Server := ⟨[⟨false, false, 0, false, false, false, .init, .init, [], [], .ended, .ended, none, 0, [], [], [], [], []⟩], 0⟩

theorem idle_start (c : Server → Op → Prop) : (system.restrict c).Reach idle := by
  refine .start fun s hs => ?_
  rw [mem_singleton.mp hs]
  exact ⟨rfl, rfl, rfl, rfl, rfl, rfl, rfl, rfl, rfl, rfl⟩

/-- Two bytes are received, two are sent, and the peer closes the connection. -/
def served : Server := List.foldl Server.step idle
  [.accept, .rx 0 .go, .rx 0 .go, .tx 0 .go, .tx 0 .go, .rx 0 (.recv 0 [72, 105]), .rx 0 (.wrote 2), .rx 0 .go, .rx 0 .go,
    .put 0 [79, 75], .tx 0 .event, .tx 0 .go, .tx 0 (.buf (some 2)), .tx 0 (.send 0), .tx 0 .go,
    .rx 0 (.recv (-1) []), .tx 0 .event, .tx 0 (.close 0)]

theorem sessions_hold_served : (∃ s ∈ served.sessions, s.closed = true ∧ s.written = [72, 105] ∧ s.handed = [79, 75]) ∧
    ∀ s ∈ served.sessions, s.Right :=
  ⟨⟨_, mem_singleton_self _, rfl, rfl, rfl⟩, sessions_hold (legals_reach (idle_start Orderly) _ (by decide))⟩

/-- Both threads wait; a user writes a byte, which cannot be sent, and the socket is closed. -/
def torn : List Op :=
  [.accept, .rx 0 .go, .rx 0 .go, .tx 0 .go, .tx 0 .go,
    .put 0 [65], .tx 0 .event, .tx 0 .go, .tx 0 (.buf (some 1)), .tx 0 (.send (-1)), .tx 0 .go, .tx 0 (.close (-1))]

/-- The receive thread goes on with the closed socket; its slot is given away while it waits. -/
theorem torn_while_receiving : ∃ t t' : Server, system.Reach t ∧ system.Reach t' ∧
    (∃ s ∈ t.sessions, s.late = true ∧ ¬ s.Right) ∧ ∃ s ∈ t'.sessions, s.reused = true ∧ ¬ s.Right := by
  have h1 := legals_reach (idle_start fun _ _ => True) torn (by decide)
  have h2 := legals_reach h1 [.rx 0 (.recv (-1) [])] (by decide)
  have h3 := legals_reach h1 [.accept] (by decide)
  refine ⟨_, _, h2.of_restrict, h3.of_restrict, ⟨_, mem_singleton_self _, rfl, fun h => ?_⟩,
    _, mem_singleton_self _, rfl, fun h => ?_⟩
  · cases h.late
  · cases h.reused

end Telnetd
end Vsf
