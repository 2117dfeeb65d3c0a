/-
# TCP connections: segments and ticks

`vsfip_tcp_socket_input`, the state machine a received segment goes through, and
`vsfip_tcp_socket_tick`, called every millisecond. The switch is `Sock.pass`; the jump back to
`re_process` is the loop around it, which ends, as the user's code can only close (`input_returns`).
-/
import Mathlib
import Vsf.Net.Tcp

namespace Vsf
namespace Tcp

open Ip List

/-- A received segment, with the address of its sender. -/
structure Seg where
  seq : UInt32
  ackseq : UInt32
  flags : Flags
  windowSize : UInt16
  buf : Buf
  srcAddr : UInt32
  srcPort : UInt16

/-- The locals of `vsfip_tcp_socket_input`: flags not handled, `release_buffer`, `pre_state`. -/
structure Frame where
  flags : Flags
  release : Bool
  pre : Stat

namespace Sock

/-! ### What becomes of the buffer -/

/-- The buffer is released by `vsfip_tcp_socket_input`. -/
def drop (s : Sock) (seg : Seg) : Sock :=
  { s with net := s.net.release seg.buf.id, log := { s.log with disposed := s.log.disposed ++ [Disposal.release] } }

/-- `buf->app.size` is read. -/
def look (s : Sock) : Sock := { s with log := { s.log with disposed := s.log.disposed ++ [Disposal.read] } }

/-- The part of `vsfip_tcp_data_input` before the buffer is handed over. -/
def count (s : Sock) (seg : Seg) : Sock := { s with
  pcb := { s.pcb with rseq := s.pcb.rseq + seg.buf.size, ackTick := 10 }
  log := { s.log with
    accepted := s.log.accepted ++ [⟨seg.seq, seg.buf.payload, true⟩]
    disposed := s.log.disposed ++ [Disposal.handOver] } }

/-- `vsfip_tcp_data_input`: the callback gets the buffer, or the input queue. -/
def dataInput (s : Sock) (seg : Seg) : Sock :=
  let s := s.count seg
  if s.opts.onInput then s.react else { s with inq := s.inq ++ [{ seg.buf with ttl := 10 }] }

/-! ### Acknowledgements -/

/-- One acknowledged segment leaves the output queue. -/
def ackOne (s : Sock) (b : Buf) (q : List Buf) : Sock :=
  let s := { s with outq := q, log := { s.log with acked := s.log.acked ++ [b] } }
  let s := if s.opts.onOutputted then s.react else s
  s.release b.id

/-- The loop that takes acknowledged segments from the output queue. -/
def ackLoop : ℕ → Sock → Sock
  | 0, s => s
  | f + 1, s =>
    match s.outq with
    | [] => s
    | b :: q => if s.pcb.ackedLseq ≥ b.addr + b.size then ackLoop f (s.ackOne b q) else s

/-- The segments queued, and those the user may still queue meanwhile. -/
def pending (s : Sock) : ℕ := s.outq.length + (s.env.map List.length).sum

/-- An acknowledgement other than the last: the loop has its fuel. -/
def ackInput (s : Sock) (ackseq : UInt32) : Sock :=
  ({ s with pcb := { s.pcb with txTimeoutMs := 0, ackedLseq := ackseq } } : Sock).ackLoop (s.pending + 1)

/-! ### The states -/

/-- The end of the synchronised states. -/
def finish (l : Frame) (seg : Seg) (s : Sock) : Sock × Option Frame :=
  (if l.release then s.drop seg else s, none)

/-- The first part of `remote_close`: the FIN is acknowledged and the state set. -/
def passiveClose (seg : Seg) (s : Sock) : Sock :=
  let s := { s with pcb := { s.pcb with rclose := true, rseq := seg.seq + 1 } }
  let s := (s.sendflags { ack := true }).2
  { s with pcb := { s.pcb with state := if s.pcb.lclose then .closed else .closeWait } }

/-- `remote_close`. -/
def remoteClose (l : Frame) (seg : Seg) (s : Sock) : Sock × Option Frame :=
  let s := s.passiveClose seg
  let l := { l with flags := { l.flags with fin := false }, pre := s.pcb.state }
  let s := s.postRx .rxfail
  if s.pcb.state ≠ l.pre then (s, some l)
  else finish l seg (if s.pcb.state = .closed then s.postTx .closed else s)

def finPart (l : Frame) (seg : Seg) (s : Sock) : Sock × Option Frame :=
  if l.flags.fin then remoteClose l seg s else finish l seg s

/-- `VSFIP_TCPSTAT_CLOSEWAIT`. -/
def closeWait (l : Frame) (seg : Seg) (s : Sock) : Sock × Option Frame :=
  if l.flags.ack ∧ seg.ackseq ≠ s.pcb.ackedLseq then
    let s := (s.ackInput seg.ackseq).postTx .txok
    if s.pcb.state ≠ l.pre then (s, some l) else finPart l seg s
  else finPart l seg s

/-- `VSFIP_TCPSTAT_ESTABLISHED`, which falls through to `CLOSEWAIT`. -/
def established (l : Frame) (seg : Seg) (s : Sock) : Sock × Option Frame :=
  let s := s.look
  if seg.buf.size > 0 then
    if s.pcb.rseq = seg.seq then
      let l := { l with release := false }
      let s := (s.dataInput seg).postRx .rxok
      if s.pcb.state ≠ l.pre then (s, some l) else closeWait l seg s
    else closeWait l seg (s.sendflags { ack := true }).2
  else closeWait l seg s

/-- Data after a local close is counted. -/
def discard (seg : Seg) (s : Sock) : Sock := { s with
  pcb := { s.pcb with rseq := s.pcb.rseq + seg.buf.size }
  log := { s.log with accepted := s.log.accepted ++ [⟨seg.seq, seg.buf.payload, false⟩] } }

/-- `check_data_in_FIN`: data after a local close is counted and dropped. -/
def dataInFin (seg : Seg) (s : Sock) : Sock :=
  let s := s.look
  let s := if seg.buf.size > 0 then
      ((if s.pcb.rseq = seg.seq then s.discard seg else s).sendflags { ack := true }).2
    else s
  s.drop seg

/-- The FIN of this side is acknowledged. -/
def finAcked (s : Sock) : Sock :=
  { s with pcb := { s.pcb with lclose := true, txTimeoutMs := 0, ackedLseq := s.pcb.lseq } }

/-- `VSFIP_TCPSTAT_FINWAIT1`. -/
def finWait1 (l : Frame) (seg : Seg) (s : Sock) : Sock × Option Frame :=
  if l.flags.ack ∧ seg.ackseq = s.pcb.lseq then
    let s := s.finAcked
    if l.flags.fin then remoteClose l seg s
    else (dataInFin seg { s with pcb := { s.pcb with state := .finWait2 } }, none)
  else (dataInFin seg s, none)

/-- `VSFIP_TCPSTAT_FINWAIT2`. -/
def finWait2 (l : Frame) (seg : Seg) (s : Sock) : Sock × Option Frame :=
  if l.flags.fin then remoteClose l seg s else (dataInFin seg s, none)

/-- `VSFIP_TCPSTAT_LASTACK`. -/
def lastAck (l : Frame) (seg : Seg) (s : Sock) : Sock :=
  let s := if l.flags.fin then (s.sendflags { ack := true }).2 else s
  if l.flags = { ack := true } ∧ seg.ackseq = s.pcb.lseq then
    let s := s.finAcked
    (({ s with pcb := { s.pcb with state := .closed } } : Sock).drop seg).postTx .closed
  else s.drop seg

/-- `connected`. -/
def connected (l : Frame) (seg : Seg) (s : Sock) : Sock :=
  let s := { s with pcb := { s.pcb with rclose := false, lclose := false, state := .established } }
  (if l.release then s.drop seg else s).postTx .connectok

/-- `VSFIP_TCPSTAT_SYN_SENT`. -/
def synSent (l : Frame) (seg : Seg) (s : Sock) : Sock :=
  if l.flags = { syn := true } then
    let s := { s with pcb := { s.pcb with rseq := seg.seq + 1, txRetry := 3 } }
    let s := (s.sendflags { syn := true, ack := true }).2
    ({ s with pcb := { s.pcb with lseq := s.pcb.lseq + 1, state := .synGet } } : Sock).drop seg
  else if (l.flags.syn ∨ l.flags.ack) ∧ seg.ackseq = s.pcb.lseq then
    let s := { s with pcb := { s.pcb with txTimeoutMs := 0, rseq := seg.seq + 1, ackedLseq := s.pcb.lseq } }
    connected l seg (s.sendflags { ack := true }).2
  else s.drop seg

/-- `VSFIP_TCPSTAT_SYN_GET`. -/
def synGet (l : Frame) (seg : Seg) (s : Sock) : Sock :=
  if l.flags = { syn := true } then
    let s := { s with pcb := { s.pcb with lseq := s.pcb.ackedLseq, txRetry := 3 } }
    let s := (s.sendflags { syn := true, ack := true }).2
    ({ s with pcb := { s.pcb with lseq := s.pcb.lseq + 1 } } : Sock).drop seg
  else if l.flags.ack ∧ seg.ackseq = s.pcb.ackedLseq + 1 then
    let s := ({ s with pcb := { s.pcb with
      txTimeoutMs := 0, ackedLseq := seg.ackseq, lseq := seg.ackseq } } : Sock).look
    if seg.buf.size > 0 then
      if s.pcb.rseq = seg.seq then connected { l with release := false } seg (s.dataInput seg)
      else connected l seg (s.sendflags { ack := true }).2
    else connected l seg s
  else if l.flags.fin then
    let s := { s with pcb := { s.pcb with txRetry := 3 } }
    let s := (s.sendflags { fin := true }).2
    ({ s with pcb := { s.pcb with lseq := s.pcb.lseq + 1, state := .finWait1, lclose := true } } : Sock).drop seg
  else s.drop seg

/-- The control block of a new child, before its `SYN | ACK` is sent. -/
def childPcb (s : Sock) (seg : Seg) : Pcb := { Pcb.new s.opts.cfg with
  state := .synGet
  lseq := s.stack.tsn
  ackedLseq := s.stack.tsn
  rseq := seg.seq + 1
  txSm := s.pcb.txSm
  txRetry := 3 }

/-- `VSFIP_TCPSTAT_LISTEN`. -/
def listen (l : Frame) (seg : Seg) (s : Sock) : Sock :=
  if l.flags = { syn := true } ∧ s.listener.acceptedNum < s.listener.backlog ∧ s.listener.closing = false then
    match s.stack.sockets with
    | 0 => s.drop seg
    | n + 1 =>
      let child : Sock := { s with
        pcb := s.childPcb seg
        inq := []
        outq := []
        opts := { s.opts with onInput := false, onOutputted := false, father := true } }
      let child := (child.sendflags { syn := true, ack := true }).2
      let pcb := { child.pcb with lseq := child.pcb.lseq + 1, rclose := false }
      ({ s with
        listener := { s.listener with
          acceptedNum := s.listener.acceptedNum + 1
          children := ⟨seg.srcAddr, seg.srcPort, pcb⟩ :: s.listener.children }
        stack := { s.stack with tsn := s.stack.tsn + 0x10000, sockets := n }
        net := child.net
        log := child.log } : Sock).drop seg
  else s.drop seg

/-- The switch over the state; a frame is returned for the jump to `re_process`. -/
def pass (l : Frame) (seg : Seg) (s : Sock) : Sock × Option Frame :=
  match s.pcb.state with
  | .invalid => (s.drop seg, none)
  | .closed => ((s.sendflags { rst := true }).2.drop seg, none)
  | .listen => (listen l seg s, none)
  | .synSent => (synSent l seg s, none)
  | .synGet => (synGet l seg s, none)
  | .established => established l seg s
  | .closeWait => closeWait l seg s
  | .finWait1 => finWait1 l seg s
  | .finWait2 => finWait2 l seg s
  | .lastAck => (lastAck l seg s, none)

/-- The loop of the jumps to `re_process`. -/
def process : ℕ → Frame → Seg → Sock → Option Sock
  | 0, _, _, _ => none
  | f + 1, l, seg, s =>
    match pass l seg s with
    | (s, none) => some s
    | (s, some l) => process f l seg s

/-- A segment with RST. -/
def reset (seg : Seg) (s : Sock) : Sock :=
  let s := s.drop seg
  let s := { s with
    pcb := { s.pcb with txTimeoutMs := 0, rxTimeoutMs := 0, state := .closed }
    net := (s.net.freeList s.inq).freeList s.outq
    inq := []
    outq := [] }
  (s.postTx .timeout).postRx .timeout

/-- `vsfip_tcp_socket_input`. -/
def input (s : Sock) (seg : Seg) : Option Sock :=
  if s.listener.backlog > 0 ∧ seg.flags ≠ { syn := true } then some (s.drop seg)
  else
    let s := { s with pcb := { s.pcb with rwnd := seg.windowSize.toUInt32 } }
    if seg.flags.rst then some (reset seg s)
    else process 4 ⟨seg.flags, true, s.pcb.state⟩ seg s

/-! ### Ticks -/

/-- The walk of `vsfip_check_buff`: what stays in the queue, and the releases. -/
def checkLoop : List Buf → Net → List Buf × Net
  | [], n => ([], n)
  | b :: q, n =>
    if b.ttl = 0 ∨ b.ttl - 1 = 0 then checkLoop q (n.release b.id)
    else
      let r := checkLoop q n
      ({ b with ttl := b.ttl - 1 } :: r.1, r.2)

/-- `vsfip_check_buff`. -/
def checkBuff (s : Sock) : Sock :=
  let r := checkLoop s.inq s.net
  { s with inq := r.1, net := r.2 }

/-- `vsfip_close` of a child. -/
def closeChild (s : Sock) : Sock :=
  { s with net := (s.net.freeList s.inq).freeList s.outq, inq := [], outq := [], freed := true }

/-- A SYN or FIN is sent again. -/
def repeatFlags (s : Sock) : Sock :=
  let s := { s with pcb := { s.pcb with lseq := s.pcb.ackedLseq } }
  let s := (s.sendflags s.pcb.flags).2
  { s with pcb := { s.pcb with lseq := if s.pcb.flags.syn ∨ s.pcb.flags.fin then s.pcb.lseq + 1 else s.pcb.lseq } }

/-- A SYN or FIN was sent often enough. -/
def giveUp (s : Sock) : Sock :=
  let st : Stat := s.pcb.state
  let s := { s with pcb := { s.pcb with
    state := if st = Stat.synSent ∨ st = Stat.synGet ∨ st = Stat.lastAck then .closed else st } }
  s.postTx .timeout

/-- The timeout of a SYN or FIN; `true` when the tick ends here. -/
def tickTx (s : Sock) : Sock × Bool :=
  if s.pcb.txTimeoutMs > 0 then
    let s := { s with pcb := { s.pcb with txTimeoutMs := s.pcb.txTimeoutMs - 1 } }
    if s.pcb.txTimeoutMs = 0 then
      let s := { s with pcb := { s.pcb with txRetry := s.pcb.txRetry - 1 } }
      if s.pcb.txRetry ≠ 0 then (s.repeatFlags, false)
      else if s.opts.father ∧ s.pcb.flags.syn then (s.closeChild, false)
      else (s.giveUp, true)
    else (s, false)
  else (s, false)

/-- The timeout of a waiting reader. -/
def tickRx (s : Sock) : Sock × Bool :=
  if s.pcb.rxTimeoutMs > 0 then
    let s := { s with pcb := { s.pcb with rxTimeoutMs := s.pcb.rxTimeoutMs - 1 } }
    if s.pcb.rxTimeoutMs = 0 then (s.postRx .timeout, true) else (s, false)
  else (s, false)

/-- The output queue is given up and a FIN sent. -/
def flushOut (s : Sock) : Sock :=
  let s := { s with
    net := s.net.freeList s.outq
    outq := []
    pcb := { s.pcb with lseq := s.pcb.ackedLseq, txRetry := 3 } }
  let s := (s.sendflags { fin := true }).2
  ({ s with pcb := { s.pcb with
    lseq := s.pcb.lseq + 1
    state := if s.pcb.rclose then .lastAck else .finWait1
    lclose := true } } : Sock).postTx .timeout

/-- A segment is sent again, under the sequence number it has. -/
def resend (s : Sock) (b : Buf) : Buf × Sock :=
  let lseq := s.pcb.lseq
  let s := { s with pcb := { s.pcb with lseq := b.addr }, net := s.net.reference b.id }
  let r := s.sendDo { b with ttl := s.opts.txTimeoutMs.toUInt16 } { psh := true }
  (r.2.1, { r.2.2 with pcb := { r.2.2.pcb with lseq := lseq } })

/-- The walk over the output queue: `done` was walked already. -/
def tickLoop : List Buf → List Buf → Sock → Sock × Bool
  | done, [], s => ({ s with outq := done }, false)
  | done, b :: rest, s =>
    let b := { b with ttl := b.ttl - 1 }
    if b.ttl ≠ 0 then tickLoop (done ++ [b]) rest s
    else
      let b' := { b with retry := if b.retry = 0 then 0 else b.retry - 1 }
      if (b.retry = 0 ∨ b'.retry ≠ 0) ∧ s.pcb.state ≠ .closeWait then
        let r := s.resend b'
        tickLoop (done ++ [r.1]) rest r.2
      else (flushOut { s with outq := done ++ b' :: rest }, true)

/-- The delayed acknowledgement. -/
def tickAck (s : Sock) : Sock :=
  if s.pcb.ackedRseq ≠ s.pcb.rseq then
    let s := { s with pcb := { s.pcb with ackTick := s.pcb.ackTick - 1 } }
    if s.pcb.ackTick = 0 then
      let s := (s.sendflags { ack := true }).2
      { s with pcb := { s.pcb with ackTick := 10 } }
    else s
  else s

/-- `vsfip_tcp_socket_tick`. -/
def socketTick (s : Sock) : Sock :=
  let r := s.tickTx
  if r.2 then r.1
  else
    let r := r.1.tickRx
    if r.2 then r.1
    else
      let r := tickLoop [] r.1.outq r.1
      if r.2 then r.1 else r.1.tickAck

/-- What `vsfip_tick` does with a socket. -/
def tick (s : Sock) : Sock := s.checkBuff.socketTick

/-! ### The loops end -/

/-- A call adds at most one segment to the output queue. -/
structure AddsOne (s s' : Sock) : Prop where
  env : s'.env = s.env
  outq : s'.outq.length ≤ s.outq.length + 1

theorem asyncSend_addsOne (s : Sock) (b : Buf) : AddsOne s (s.asyncSend b).2 := by
  generalize hr : s.asyncSend b = r
  have hcase := asyncSend_cases s b
  rw [hr] at hcase
  cases hcase with
  | waited => exact ⟨rfl, Nat.le_succ _⟩
  | closed => exact ⟨rfl, Nat.le_succ _⟩
  | full => exact ⟨rfl, Nat.le_succ _⟩
  | noRoute => exact ⟨rfl, Nat.le_succ _⟩
  | noRoom => exact ⟨rfl, by simp⟩
  | sent => exact ⟨rfl, by simp⟩

theorem sendTry_addsOne (s : Sock) (sm : ℕ) (b : Buf) (flush : Bool) : AddsOne s (s.sendTry sm b flush).2.2 := by
  have h := asyncSend_addsOne s b
  unfold sendTry sendFlush
  dsimp only
  split_ifs <;> exact ⟨h.env, h.outq⟩

theorem send_addsOne (s : Sock) (sm : ℕ) (pc : SendPc) (evt : Evt) (b : Buf) (flush : Bool) :
    AddsOne s (s.send sm pc evt b flush).2.2 := by
  unfold send
  cases pc with
  | start => exact sendTry_addsOne s sm b flush
  | waiting =>
    split_ifs
    · exact ⟨rfl, Nat.le_succ _⟩
    · exact sendTry_addsOne s sm b flush
    · exact ⟨rfl, Nat.le_succ _⟩
  | flushing =>
    unfold sendFlush
    split_ifs <;> exact ⟨rfl, Nat.le_succ _⟩

theorem recv_addsOne (s : Sock) (sm : ℕ) (pc : RecvPc) (evt : Evt) : AddsOne s (s.recv sm pc evt).2.2.2 := by
  have h : AddsOne s s.asyncRecv.2.2 := by
    unfold asyncRecv
    split_ifs
    · exact ⟨rfl, Nat.le_succ _⟩
    · exact ⟨rfl, Nat.le_succ _⟩
    · split <;> exact ⟨rfl, Nat.le_succ _⟩
  unfold recv
  cases pc <;> dsimp only <;> split_ifs <;> first | exact ⟨h.env, h.outq⟩ | exact ⟨rfl, Nat.le_succ _⟩

theorem close_addsOne (s : Sock) (sm : ℕ) (pc : ClosePc) (evt : Evt) : AddsOne s (s.close sm pc evt).2.2 := by
  have h : AddsOne s (s.closeFin sm) := by
    unfold closeFin
    split_ifs
    · exact ⟨rfl, Nat.le_succ _⟩
    · exact ⟨by simp, by simp⟩
  unfold close closeDrain
  cases pc <;> dsimp only <;> split_ifs <;> first | exact h | exact ⟨rfl, Nat.le_succ _⟩

theorem exec_addsOne (s : Sock) (c : Call) : AddsOne s (s.exec c) := by
  cases c with
  | asyncSend b => exact asyncSend_addsOne s b
  | asyncRecv => exact recv_addsOne s 0 .waiting .rxok
  | send sm pc evt b flush => exact send_addsOne s sm pc evt b flush
  | recv sm pc evt => exact recv_addsOne s sm pc evt
  | close sm pc evt => exact close_addsOne s sm pc evt

theorem foldl_exec_outq : ∀ (cs : List Call) (s : Sock),
    (cs.foldl exec s).env = s.env ∧ (cs.foldl exec s).outq.length ≤ s.outq.length + cs.length
  | [], s => ⟨rfl, le_refl _⟩
  | c :: cs, s => by
    obtain ⟨h1, h2⟩ := foldl_exec_outq cs (s.exec c)
    have h := exec_addsOne s c
    refine ⟨h1.trans h.env, ?_⟩
    have := h.outq
    rw [foldl_cons, length_cons]
    omega

theorem react_pending (s : Sock) : s.react.pending ≤ s.pending := by
  unfold react
  cases he : s.env with
  | nil => exact le_refl _
  | cons calls env =>
    obtain ⟨h1, h2⟩ := foldl_exec_outq calls { s with env := env }
    dsimp only at h1 h2 ⊢
    unfold pending
    rw [h1, he, map_cons, sum_cons]
    omega

/-- The segment is off the queue before the user is called back. -/
theorem ackOne_reacts (s : Sock) (b : Buf) (q : List Buf) :
    Reacts { s with outq := q, log := { s.log with acked := s.log.acked ++ [b] } } (s.ackOne b q) := by
  unfold ackOne
  refine Reacts.trans ?_ (release_reacts _ b.id)
  split_ifs
  · exact react_reacts _
  · exact .refl _

theorem ackOne_keeps (s : Sock) (b : Buf) (q : List Buf) : Keeps s (s.ackOne b q) := by
  have h : Keeps s { s with outq := q, log := { s.log with acked := s.log.acked ++ [b] } } :=
    ⟨rfl, rfl, rfl, rfl, rfl, rfl, .inl rfl, ⟨[], rfl, (append_nil _).symm⟩, rfl, rfl,
      ⟨[], (append_nil _).symm, by simp⟩⟩
  exact h.trans (ackOne_reacts s b q).toKeeps

theorem ackOne_pending {s : Sock} {b : Buf} {q : List Buf} (hq : s.outq = b :: q) :
    (s.ackOne b q).pending < s.pending := by
  set u : Sock := { s with outq := q, log := { s.log with acked := s.log.acked ++ [b] } }
  have hlt : u.pending < s.pending := by
    unfold pending
    rw [hq, length_cons]
    show q.length + (s.env.map List.length).sum < _
    omega
  refine lt_of_le_of_lt ?_ hlt
  unfold ackOne
  dsimp only
  split_ifs
  · exact react_pending u
  · exact le_refl _

theorem ackLoop_keeps : ∀ (f : ℕ) (s : Sock), Keeps s (ackLoop f s)
  | 0, s => .refl s
  | f + 1, s => by
    unfold ackLoop
    cases hq : s.outq with
    | nil => exact .refl s
    | cons b q =>
      dsimp only
      split_ifs
      · exact (ackOne_keeps s b q).trans (ackLoop_keeps f _)
      · exact .refl s

theorem ackInput_keeps (s : Sock) (a : UInt32) : Keeps s (s.ackInput a) := by
  have h : Keeps s { s with pcb := { s.pcb with txTimeoutMs := 0, ackedLseq := a } } :=
    ⟨rfl, rfl, rfl, rfl, rfl, rfl, .inl rfl, ⟨[], rfl, (append_nil _).symm⟩, rfl, rfl,
      ⟨[], (append_nil _).symm, by simp⟩⟩
  exact h.trans (ackLoop_keeps _ _)

/-- **The loop over the acknowledged segments ends**, whatever is sent meanwhile. -/
theorem ackLoop_stops : ∀ (f g : ℕ) (s : Sock), s.pending < f → s.pending < g → ackLoop f s = ackLoop g s
  | 0, _, _, h, _ => absurd h (Nat.not_lt_zero _)
  | _, 0, _, _, h => absurd h (Nat.not_lt_zero _)
  | f + 1, g + 1, s, hf, hg => by
    unfold ackLoop
    cases hq : s.outq with
    | nil => rfl
    | cons b q =>
      dsimp only
      have hlt := ackOne_pending hq
      split_ifs
      · exact ackLoop_stops f g _ (by omega) (by omega)
      · rfl

/-! ### The jumps to `re_process` -/

@[simp] theorem look_pcb (s : Sock) : s.look.pcb = s.pcb := rfl

@[simp] theorem drop_pcb (s : Sock) (seg : Seg) : (s.drop seg).pcb = s.pcb := rfl

@[simp] theorem finAcked_state (s : Sock) : s.finAcked.pcb.state = s.pcb.state := rfl

theorem passiveClose_state (seg : Seg) (s : Sock) :
    (s.passiveClose seg).pcb.state = if s.pcb.lclose then .closed else .closeWait := by
  simp [passiveClose]

@[simp] theorem passiveClose_lclose (seg : Seg) (s : Sock) : (s.passiveClose seg).pcb.lclose = s.pcb.lclose := by
  simp [passiveClose]

@[simp] theorem passiveClose_rclose (seg : Seg) (s : Sock) : (s.passiveClose seg).pcb.rclose = true := by
  simp [passiveClose]

theorem Keeps.state_ne {s s' : Sock} (h : Keeps s s') (hne : s'.pcb.state ≠ s.pcb.state) :
    s.pcb.lclose = false ∧ s'.pcb.state = if s.pcb.rclose then .lastAck else .finWait1 :=
  h.state.resolve_left hne

/-- The states the user's code can have moved to. -/
def Closing (s : Sock) : Prop := s.pcb.state = .finWait1 ∨ s.pcb.state = .lastAck

theorem Keeps.closing {s s' : Sock} (h : Keeps s s') (hne : s'.pcb.state ≠ s.pcb.state) : s'.Closing := by
  obtain ⟨-, h⟩ := h.state_ne hne
  split_ifs at h
  · exact .inr h
  · exact .inl h

variable {l l' : Frame} {seg : Seg} {s s' : Sock}

theorem remoteClose_again (h : remoteClose l seg s = (s', some l')) :
    s.pcb.lclose = false ∧ s'.pcb.state = .lastAck := by
  unfold remoteClose at h
  by_cases hne : ((s.passiveClose seg).postRx .rxfail).pcb.state ≠ (s.passiveClose seg).pcb.state
  · rw [if_pos hne] at h
    obtain ⟨h1, h2⟩ := (postRx_reacts (s.passiveClose seg) .rxfail).toKeeps.state_ne hne
    rw [passiveClose_rclose, if_pos rfl] at h2
    rw [passiveClose_lclose] at h1
    rw [← (Prod.mk.inj h).1]
    exact ⟨h1, h2⟩
  · rw [if_neg hne] at h
    cases (Prod.mk.inj h).2

theorem finPart_again (h : finPart l seg s = (s', some l')) : s'.Closing := by
  unfold finPart at h
  split_ifs at h
  · exact .inr (remoteClose_again h).2
  · cases (Prod.mk.inj h).2

theorem closeWait_again (hpre : l.pre = s.pcb.state) (h : closeWait l seg s = (s', some l')) : s'.Closing := by
  unfold closeWait at h
  dsimp only at h
  split_ifs at h with ha hne
  · have hk := (ackInput_keeps s seg.ackseq).trans (postTx_reacts _ .txok).toKeeps
    rw [← (Prod.mk.inj h).1]
    exact hk.closing (by rwa [hpre] at hne)
  · exact finPart_again h
  · exact finPart_again h

/-- The user closes meanwhile, or the state stays. -/
def Stays (s s' : Sock) : Prop := s'.pcb.state = s.pcb.state ∨
  (s.pcb.lclose = false ∧ s'.pcb.state = if s.pcb.rclose then .lastAck else .finWait1)

theorem dataInput_postRx_state (s : Sock) (seg : Seg) (evt : Evt) : Stays s ((s.dataInput seg).postRx evt) := by
  unfold dataInput
  dsimp only
  split_ifs
  · exact ((react_reacts (s.count seg)).trans (postRx_reacts _ evt)).state
  · exact (postRx_reacts { s.count seg with inq := (s.count seg).inq ++ [{ seg.buf with ttl := 10 }] } evt).state

theorem established_again (hpre : l.pre = s.pcb.state) (h : established l seg s = (s', some l')) : s'.Closing := by
  unfold established at h
  dsimp only at h
  split_ifs at h with hz hq hne
  · rw [← (Prod.mk.inj h).1]
    rw [hpre] at hne
    obtain ⟨-, h2⟩ := (dataInput_postRx_state s.look seg .rxok).resolve_left hne
    split_ifs at h2
    · exact .inr h2
    · exact .inl h2
  · exact closeWait_again (Eq.symm (by simpa using hne)) h
  · exact closeWait_again (by simpa using hpre) h
  · exact closeWait_again (s := s.look) hpre h

/-- A pass is repeated only after the user closed the connection. -/
theorem pass_again (hpre : l.pre = s.pcb.state) (h : pass l seg s = (s', some l')) : s'.Closing := by
  unfold pass at h
  split at h
  · cases (Prod.mk.inj h).2
  · cases (Prod.mk.inj h).2
  · cases (Prod.mk.inj h).2
  · cases (Prod.mk.inj h).2
  · cases (Prod.mk.inj h).2
  · exact established_again hpre h
  · exact closeWait_again hpre h
  · unfold finWait1 at h
    split_ifs at h
    · exact .inr (remoteClose_again h).2
    · cases (Prod.mk.inj h).2
    · cases (Prod.mk.inj h).2
  · unfold finWait2 at h
    split_ifs at h
    · exact .inr (remoteClose_again h).2
    · cases (Prod.mk.inj h).2
  · cases (Prod.mk.inj h).2

theorem pass_closing (hs : s.Closing) : (pass l seg s).2 = none := by
  cases hr : (pass l seg s).2 with
  | none => rfl
  | some l' =>
    exfalso
    have hp : pass l seg s = ((pass l seg s).1, some l') := by rw [← hr]
    rcases hs with hs | hs
    · rw [pass, hs] at hp
      unfold finWait1 at hp
      split_ifs at hp
      · exact absurd (remoteClose_again hp).1 (by simp [finAcked])
      · cases (Prod.mk.inj hp).2
      · cases (Prod.mk.inj hp).2
    · rw [pass, hs] at hp
      cases (Prod.mk.inj hp).2

/-- What a segment without RST does at a connection: one pass, or two. -/
def passes (s : Sock) (seg : Seg) : Sock :=
  match pass ⟨seg.flags, true, s.pcb.state⟩ seg s with
  | (s, none) => s
  | (s, some l) => (pass l seg s).1

theorem process_eq (s : Sock) (seg : Seg) : process 4 ⟨seg.flags, true, s.pcb.state⟩ seg s = some (s.passes seg) := by
  unfold passes
  cases hp : pass ⟨seg.flags, true, s.pcb.state⟩ seg s with
  | mk s1 o =>
    rw [process, hp]
    cases o with
    | none => rfl
    | some l1 =>
      have hc : s1.Closing := pass_again rfl hp
      have hlast : pass l1 seg s1 = ((pass l1 seg s1).1, none) := by rw [← pass_closing hc]
      dsimp only
      rw [process, hlast]

/-- **A segment is handled in at most two passes**, so the jumps end. -/
theorem input_eq (s : Sock) (seg : Seg) : s.input seg = some
    (if s.listener.backlog > 0 ∧ seg.flags ≠ { syn := true } then s.drop seg
      else if seg.flags.rst then reset seg { s with pcb := { s.pcb with rwnd := seg.windowSize.toUInt32 } }
      else passes { s with pcb := { s.pcb with rwnd := seg.windowSize.toUInt32 } } seg) := by
  unfold input
  split_ifs
  · rfl
  · rfl
  · exact process_eq { s with pcb := { s.pcb with rwnd := seg.windowSize.toUInt32 } } seg

theorem input_returns (s : Sock) (seg : Seg) : (s.input seg).isSome := by
  rw [input_eq]
  rfl

end Sock
end Tcp
end Vsf
