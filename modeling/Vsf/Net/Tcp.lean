/-
# TCP connections: sending, receiving, closing

One TCP socket of `vsfip.c` with its control block and two queues, and the calls a user makes on it.
A call that wakes a state machine or calls the user back may run the user's code before it returns:
`Sock.env` has one list of calls for each time it gets to run. What happened is kept in `Sock.log`.
-/
import Mathlib
import Vsf.Net.Output

namespace Vsf
namespace Tcp

open Ip List

/-- `enum vsfip_tcp_stat_t`. -/
inductive Stat
  | invalid
  | closed
  | listen
  | synSent
  | synGet
  | established
  | finWait1
  | finWait2
  | closeWait
  | lastAck
deriving DecidableEq

/-- The flags of a TCP header, bit by bit. -/
structure Flags where
  fin : Bool := false
  syn : Bool := false
  rst : Bool := false
  psh : Bool := false
  ack : Bool := false
  urg : Bool := false
  ece : Bool := false
  cwr : Bool := false
deriving DecidableEq

/-- The events a socket posts; `other` is any event of the user. -/
inductive Evt
  | connectok
  | connectfail
  | closed
  | txok
  | rxok
  | rxfail
  | timeout
  | other
deriving DecidableEq

/-- `struct vsfip_tcppcb_t`; a waiting state machine is a number. -/
structure Pcb where
  state : Stat
  lseq : UInt32
  ackedLseq : UInt32
  rseq : UInt32
  ackedRseq : UInt32
  rwnd : UInt32
  txSm : Option ℕ
  txTimeoutMs : UInt32
  txRetry : UInt32
  txWindow : UInt32
  rxSm : Option ℕ
  rxTimeoutMs : UInt32
  rxWindow : UInt32
  ackTick : UInt32
  rclose : Bool
  lclose : Bool
  flags : Flags

/-- The fields of a TCP header that depend on the connection. -/
structure Head where
  seq : UInt32
  ackseq : UInt32
  flags : Flags
  windowSize : UInt16

/-- A segment, with what it was built from: flags, control block, input queue. -/
structure Sent where
  id : ℕ
  head : Head
  payload : List UInt8
  asked : Flags
  rseq : UInt32
  rxWindow : UInt32
  inq : List Buf

/-- Payload that moved `rseq`, handed to the user or discarded after a close. -/
structure Accepted where
  seq : UInt32
  payload : List UInt8
  delivered : Bool

/-- What `vsfip_tcp_socket_input` itself does with the buffer it is given. -/
inductive Disposal
  | read
  | handOver
  | release
deriving DecidableEq

/-- What happened at a socket, oldest first. -/
structure Log where
  sent : List Sent
  accepted : List Accepted
  received : List Buf
  acked : List Buf
  disposed : List Disposal
  posted : List (ℕ × Evt)

/-- Where the protothread of `vsfip_tcp_send` waits. -/
inductive SendPc
  | start
  | waiting
  | flushing
deriving DecidableEq

/-- Where the protothread of `vsfip_tcp_recv` waits. -/
inductive RecvPc
  | start
  | waiting
deriving DecidableEq

/-- Where the protothread of `vsfip_tcp_close` waits. -/
inductive ClosePc
  | start
  | draining
  | closing
deriving DecidableEq

/-- A call of the user on a connection. -/
inductive Call
  | asyncSend (b : Buf)
  | asyncRecv
  | send (sm : ℕ) (pc : SendPc) (evt : Evt) (b : Buf) (flush : Bool)
  | recv (sm : ℕ) (pc : RecvPc) (evt : Evt)
  | close (sm : ℕ) (pc : ClosePc) (evt : Evt)

/-- The settings of a build: `VSFIP_CFG_NETIF_HEADLEN` and the windows. -/
structure Config where
  netifHeadlen : ℕ
  rxWindow : UInt32
  txWindow : UInt32

/-- A child a listener made, with the address and port of its peer. -/
structure Child where
  addr : UInt32
  port : UInt16
  pcb : Pcb

/-- What the user sets at a socket, and whether a listener made it. -/
structure Opts where
  inet : Bool
  txTimeoutMs : UInt32
  rxTimeoutMs : UInt32
  onInput : Bool
  onOutputted : Bool
  father : Bool
  cfg : Config

/-- The listener part of a socket. -/
structure Listener where
  backlog : UInt8
  acceptedNum : UInt8
  closing : Bool
  children : List Child

/-- What sockets share: others' ports, the next port and sequence number, the pool. -/
structure Stack where
  ports : List UInt16
  tcpPort : UInt16
  tsn : UInt32
  sockets : ℕ

/-- `struct vsfip_socket_t` with its control block. -/
structure Sock where
  pcb : Pcb
  inq : List Buf
  outq : List Buf
  opts : Opts
  listener : Listener
  localPort : UInt16
  freed : Bool
  stack : Stack
  net : Net
  env : List (List Call)
  log : Log

/-- `vsfip_bufferlist_len`. -/
def bufferlistLen (q : List Buf) : UInt32 := q.foldl (fun size b => size + b.size) 0

/-- A buffer of `VSFIP_TCPBUF_GET(0)`. -/
def tcpBuf (cfg : Config) (id : ℕ) (netif : Netif) : Buf where
  id := id
  payload := []
  size_lt := Buf.nil_lt
  room := cfg.netifHeadlen + 40
  bufRoom := 0
  bufSize := UInt32.ofNat (cfg.netifHeadlen + 40)
  addr := 0
  ttl := 0
  retry := 0
  netif := netif

/-- The control block of `vsfip_socket`. -/
def Pcb.new (cfg : Config) : Pcb where
  state := .closed
  lseq := 0
  ackedLseq := 0
  rseq := 0
  ackedRseq := 0
  rwnd := 0
  txSm := none
  txTimeoutMs := 0
  txRetry := 0
  txWindow := cfg.txWindow
  rxSm := none
  rxTimeoutMs := 0
  rxWindow := cfg.rxWindow
  ackTick := 0
  rclose := true
  lclose := true
  flags := {}

/-- `vsfip_socket`, for TCP. -/
def Sock.new (inet : Bool) (cfg : Config) (stack : Stack) (net : Net) : Sock where
  pcb := .new cfg
  inq := []
  outq := []
  opts := ⟨inet, 0, 0, false, false, false, cfg⟩
  listener := ⟨0, 0, false, []⟩
  localPort := 0
  freed := false
  stack := stack
  net := net
  env := []
  log := ⟨[], [], [], [], [], []⟩

namespace Sock

/-- `vsfip_buffer_release`. -/
def release (s : Sock) (id : ℕ) : Sock := { s with net := s.net.release id }

/-! ### Sending -/

/-- The header of `vsfip_add_tcphead`: it acknowledges if `rseq` is not 0; the window's low 16 bits. -/
def tcphead (s : Sock) (flags : Flags) : Head where
  seq := s.pcb.lseq
  ackseq := s.pcb.rseq
  flags := { flags with ack := flags.ack || decide (s.pcb.rseq ≠ 0) }
  windowSize := (s.pcb.rxWindow - bufferlistLen s.inq).toUInt16

/-- `vsfip_add_tcphead`; `none` when there is no room. -/
def addTcphead (s : Sock) (b : Buf) (flags : Flags) : Option (Buf × Sock) :=
  let headlen : ℕ := if flags.syn then 24 else 20
  if b.room < headlen then none
  else
    let b := { b with bufRoom := (b.room : ℤ) - headlen, bufSize := b.size + UInt32.ofNat headlen, addr := s.pcb.lseq }
    some (b, { s with
      pcb := { s.pcb with ackedRseq := s.pcb.rseq }
      log := { s.log with sent := s.log.sent ++
        [⟨b.id, s.tcphead flags, b.payload, flags, s.pcb.rseq, s.pcb.rxWindow, s.inq⟩] } })

/-- `vsfip_tcp_send_do`: the result of the output below is not looked at. -/
def sendDo (s : Sock) (b : Buf) (flags : Flags) : VsfErr × Buf × Sock :=
  match s.addTcphead b flags with
  | none => (.fail, b, s.release b.id)
  | some (b, s) =>
    (.none, b, { s with
      pcb := { s.pcb with
        flags := if flags.fin ∨ flags.syn ∨ b.size > 0 then flags else s.pcb.flags
        lseq := s.pcb.lseq + b.size }
      net := (s.net.ipOutput s.opts.inet b).2 })

/-- `vsfip_tcp_sendflags`. -/
def sendflags (s : Sock) (flags : Flags) : VsfErr × Sock :=
  let s := { s with pcb := { s.pcb with
    txTimeoutMs := if flags.syn ∨ flags.fin then s.opts.txTimeoutMs else s.pcb.txTimeoutMs } }
  match s.net.bufferGet with
  | none => (.notEnoughResources, s)
  | some (id, net) =>
    let s := { s with net := net }
    match s.net.netifDefault with
    | none => (.fail, s)
    | some netif =>
      let r := s.sendDo (tcpBuf s.opts.cfg id netif) flags
      (r.1, r.2.2)

/-- `min(pcb->tx_window, pcb->rwnd)`. -/
def sendWindow (s : Sock) : UInt32 := if s.pcb.txWindow < s.pcb.rwnd then s.pcb.txWindow else s.pcb.rwnd

/-- `vsfip_tcp_async_send`. -/
def asyncSend (s : Sock) (b : Buf) : VsfErr × Sock :=
  if s.pcb.txSm.isSome then (.bug, s.release b.id)
  else if s.pcb.lclose then (.fail, s.release b.id)
  else
    let size := bufferlistLen s.outq
    if size + b.size > s.sendWindow then (.notReady, s)
    else
      match s.net.netifDefault with
      | none => (.fail, s)
      | some netif =>
        let b := { b with netif := netif, retry := 3, ttl := s.opts.txTimeoutMs.toUInt16 }
        let r := ({ s with net := s.net.reference b.id } : Sock).sendDo b { psh := true }
        -- the buffer is in the queue before it is sent
        let s := { r.2.2 with outq := s.outq ++ [r.2.1] }
        if r.1 ≠ .none then (.fail, s.release b.id) else (.none, s)

/-- `vsfip_tcp_send` once the buffer is queued. -/
def sendFlush (s : Sock) (sm : ℕ) : VsfErr × SendPc × Sock :=
  if s.outq ≠ [] then (.notReady, .flushing, { s with pcb := { s.pcb with txSm := some sm } })
  else (.none, .start, s)

/-- The loop of `vsfip_tcp_send` around `vsfip_tcp_async_send`. -/
def sendTry (s : Sock) (sm : ℕ) (b : Buf) (flush : Bool) : VsfErr × SendPc × Sock :=
  let r := s.asyncSend b
  if r.1.negative then (r.1, .start, r.2.release b.id)
  else if r.1 = .none then if flush then r.2.sendFlush sm else (.none, .start, r.2)
  else (.notReady, .waiting, { r.2 with pcb := { r.2.pcb with txSm := some sm } })

/-- `vsfip_tcp_send`, from where its protothread waits. -/
def send (s : Sock) (sm : ℕ) (pc : SendPc) (evt : Evt) (b : Buf) (flush : Bool) : VsfErr × SendPc × Sock :=
  match pc with
  | .start => s.sendTry sm b flush
  | .waiting =>
    if evt = .timeout then (.fail, .start, s.release b.id)
    else if evt = .txok then s.sendTry sm b flush
    else (.notReady, .waiting, s)
  | .flushing =>
    if evt = .timeout then (.fail, .start, s.release b.id)
    else if evt = .txok then s.sendFlush sm
    else (.notReady, .flushing, s)

/-! ### Receiving -/

/-- `vsfip_tcp_async_recv`. -/
def asyncRecv (s : Sock) : VsfErr × Option Buf × Sock :=
  if s.pcb.rxSm.isSome then (.bug, none, s)
  else if s.pcb.rclose then (.fail, none, s)
  else
    match s.inq with
    | [] => (.notReady, none, s)
    | b :: q => (.none, some b, { s with inq := q, log := { s.log with received := s.log.received ++ [b] } })

/-- `vsfip_tcp_recv`, from where its protothread waits. -/
def recv (s : Sock) (sm : ℕ) (pc : RecvPc) (evt : Evt) : VsfErr × Option Buf × RecvPc × Sock :=
  match pc with
  | .start =>
    let r := s.asyncRecv
    if r.1 ≠ .none then
      (.notReady, none, .waiting, { r.2.2 with pcb := { r.2.2.pcb with
        rxTimeoutMs := s.opts.rxTimeoutMs, rxSm := some sm } })
    else (.none, r.2.1, .start, r.2.2)
  | .waiting =>
    if evt = .rxok ∨ evt = .timeout ∨ evt = .rxfail then
      let r := s.asyncRecv
      (if r.1 ≠ .none then .fail else .none, r.2.1, .start, r.2.2)
    else (.notReady, none, .waiting, s)

/-! ### Closing -/

/-- `vsfip_tcp_close` once the output queue is empty, or waiting for it timed
out. -/
def closeFin (s : Sock) (sm : ℕ) : Sock :=
  let s := if s.pcb.lclose then s else
    let s := { s with pcb := { s.pcb with lseq := s.pcb.ackedLseq, txRetry := 3 } }
    let s := (s.sendflags { fin := true }).2
    { s with pcb := { s.pcb with
      lseq := s.pcb.lseq + 1
      state := if s.pcb.rclose then .lastAck else .finWait1 } }
  { s with pcb := { s.pcb with txSm := some sm } }

/-- The loop of `vsfip_tcp_close` that waits for the output queue. -/
def closeDrain (s : Sock) (sm : ℕ) : VsfErr × ClosePc × Sock :=
  if s.outq ≠ [] then (.notReady, .draining, { s with pcb := { s.pcb with txSm := some sm } })
  else (.notReady, .closing, s.closeFin sm)

/-- `vsfip_tcp_close`, from where its protothread waits. -/
def close (s : Sock) (sm : ℕ) (pc : ClosePc) (evt : Evt) : VsfErr × ClosePc × Sock :=
  match pc with
  | .start =>
    if s.pcb.state = .closed then (.none, .start, s)
    else if s.pcb.txSm.isSome then (.bug, .start, s)
    else s.closeDrain sm
  | .draining =>
    if evt = .txok then s.closeDrain sm
    else if evt = .timeout then (.notReady, .closing, s.closeFin sm)
    else (.notReady, .draining, s)
  | .closing =>
    if evt = .closed ∨ evt = .timeout then
      if s.pcb.txTimeoutMs > 0 then (.notReady, .closing, s)
      else (if evt = .closed then .none else .fail, .start,
        { s with pcb := { s.pcb with lseq := s.pcb.ackedLseq } })
    else (.notReady, .closing, s)

/-! ### The user -/

/-- One call of the user. -/
def exec (s : Sock) : Call → Sock
  | .asyncSend b => (s.asyncSend b).2
  | .asyncRecv => s.asyncRecv.2.2
  | .send sm pc evt b flush => (s.send sm pc evt b flush).2.2
  | .recv sm pc evt => (s.recv sm pc evt).2.2.2
  | .close sm pc evt => (s.close sm pc evt).2.2

/-- The user's code runs: the next list of calls. -/
def react (s : Sock) : Sock :=
  match s.env with
  | [] => s
  | calls :: env => calls.foldl exec { s with env := env }

/-- `vsfip_tcp_postevt(&pcb->tx_sm, evt)`. -/
def postTx (s : Sock) (evt : Evt) : Sock :=
  match s.pcb.txSm with
  | none => s
  | some sm => ({ s with
      pcb := { s.pcb with txSm := none }
      log := { s.log with posted := s.log.posted ++ [(sm, evt)] } } : Sock).react

/-- `vsfip_tcp_postevt(&pcb->rx_sm, evt)`. -/
def postRx (s : Sock) (evt : Evt) : Sock :=
  match s.pcb.rxSm with
  | none => s
  | some sm => ({ s with
      pcb := { s.pcb with rxSm := none }
      log := { s.log with posted := s.log.posted ++ [(sm, evt)] } } : Sock).react

/-! ### What sending does -/

end Sock

/-- A segment's header is what `vsfip_add_tcphead` makes of its origin. -/
structure Sent.Made (e : Sent) : Prop where
  flags : e.head.flags = { e.asked with ack := e.asked.ack || decide (e.rseq ≠ 0) }
  ackseq : e.head.ackseq = e.rseq
  windowSize : e.head.windowSize = (e.rxWindow - bufferlistLen e.inq).toUInt16

/-- The length of the header, with the MSS option of a SYN. -/
def Flags.headlen (f : Flags) : ℕ := if f.syn then 24 else 20

namespace Sock

/-- The segment `vsfip_add_tcphead` builds here. -/
def built (s : Sock) (b : Buf) (f : Flags) : Sent :=
  ⟨b.id, s.tcphead f, b.payload, f, s.pcb.rseq, s.pcb.rxWindow, s.inq⟩

theorem built_made (s : Sock) (b : Buf) (f : Flags) : (s.built b f).Made := ⟨rfl, rfl, rfl⟩

/-- The buffer with its header. -/
def headed (s : Sock) (b : Buf) (f : Flags) : Buf :=
  { b with bufRoom := (b.room : ℤ) - f.headlen, bufSize := b.size + UInt32.ofNat f.headlen, addr := s.pcb.lseq }

theorem sendDo_noRoom {s : Sock} {b : Buf} {f : Flags} (h : b.room < f.headlen) :
    s.sendDo b f = (.fail, b, s.release b.id) := by
  have hnone : s.addTcphead b f = none := if_pos h
  rw [sendDo, hnone]

theorem sendDo_sends {s : Sock} {b : Buf} {f : Flags} (h : f.headlen ≤ b.room) :
    s.sendDo b f = (.none, s.headed b f, { s with
      pcb := { s.pcb with
        ackedRseq := s.pcb.rseq
        flags := if f.fin ∨ f.syn ∨ b.size > 0 then f else s.pcb.flags
        lseq := s.pcb.lseq + b.size }
      net := (s.net.ipOutput s.opts.inet (s.headed b f)).2
      log := { s.log with sent := s.log.sent ++ [s.built b f] } }) := by
  have hsome : s.addTcphead b f = some (s.headed b f, { s with
      pcb := { s.pcb with ackedRseq := s.pcb.rseq }
      log := { s.log with sent := s.log.sent ++ [s.built b f] } }) := if_neg (not_lt.mpr h)
  rw [sendDo, hsome]
  rfl

/-- **What a segment without payload changes**: timeout, flags to repeat, the number acknowledged, and what
is below. -/
theorem sendflags_eq (s : Sock) (f : Flags) : ∃ timeout flags acked net es,
    (s.sendflags f).2 = { s with
      pcb := { s.pcb with txTimeoutMs := timeout, flags := flags, ackedRseq := acked }
      net := net
      log := { s.log with sent := s.log.sent ++ es } } ∧
    (timeout = if f.syn ∨ f.fin then s.opts.txTimeoutMs else s.pcb.txTimeoutMs) ∧
    ∀ e ∈ es, e.Made ∧ e.payload = [] := by
  unfold sendflags
  dsimp only
  cases hget : s.net.bufferGet with
  | none => exact ⟨_, _, _, _, [], by dsimp only; rw [append_nil], rfl, by simp⟩
  | some r =>
    obtain ⟨id, net⟩ := r
    dsimp only
    cases hroute : net.netifDefault with
    | none => exact ⟨_, _, _, _, [], by dsimp only; rw [append_nil], rfl, by simp⟩
    | some netif =>
      have hroom : f.headlen ≤ (tcpBuf s.opts.cfg id netif).room := by
        unfold Flags.headlen tcpBuf
        split_ifs <;> (dsimp only; omega)
      dsimp only
      rw [sendDo_sends hroom]
      let s' : Sock := { s with
        pcb := { s.pcb with
          txTimeoutMs := if f.syn ∨ f.fin then s.opts.txTimeoutMs else s.pcb.txTimeoutMs }
        net := net }
      let b := tcpBuf s.opts.cfg id netif
      refine ⟨s'.pcb.txTimeoutMs, if f.fin ∨ f.syn ∨ b.size > 0 then f else s.pcb.flags, s.pcb.rseq,
        (net.ipOutput s.opts.inet (s'.headed b f)).2, [s'.built b f], ?_, rfl, ?_⟩
      rotate_left 1
      · intro e he
        rw [mem_singleton] at he
        rw [he]
        exact ⟨built_made _ _ _, rfl⟩
      · have hsize : (tcpBuf s.opts.cfg id netif).size = 0 := rfl
        rw [hsize]
        simp only [UInt32.add_zero]
        rfl

/-- What is read without the fields such a segment changes is the same. -/
theorem sendflags_proj {α : Type*} (s : Sock) (f : Flags) (g : Sock → α)
    (hg : ∀ timeout flags acked net es, g { s with
      pcb := { s.pcb with txTimeoutMs := timeout, flags := flags, ackedRseq := acked }
      net := net
      log := { s.log with sent := s.log.sent ++ es } } = g s) : g (s.sendflags f).2 = g s := by
  obtain ⟨timeout, flags, acked, net, es, h, -⟩ := sendflags_eq s f
  rw [h]
  exact hg timeout flags acked net es

section
variable (s : Sock) (f : Flags)

@[simp] theorem sendflags_state : (s.sendflags f).2.pcb.state = s.pcb.state :=
  sendflags_proj s f (·.pcb.state) fun _ _ _ _ _ => rfl

@[simp] theorem sendflags_lseq : (s.sendflags f).2.pcb.lseq = s.pcb.lseq :=
  sendflags_proj s f (·.pcb.lseq) fun _ _ _ _ _ => rfl

@[simp] theorem sendflags_ackedLseq : (s.sendflags f).2.pcb.ackedLseq = s.pcb.ackedLseq :=
  sendflags_proj s f (·.pcb.ackedLseq) fun _ _ _ _ _ => rfl

@[simp] theorem sendflags_rseq : (s.sendflags f).2.pcb.rseq = s.pcb.rseq :=
  sendflags_proj s f (·.pcb.rseq) fun _ _ _ _ _ => rfl

@[simp] theorem sendflags_rwnd : (s.sendflags f).2.pcb.rwnd = s.pcb.rwnd :=
  sendflags_proj s f (·.pcb.rwnd) fun _ _ _ _ _ => rfl

@[simp] theorem sendflags_txSm : (s.sendflags f).2.pcb.txSm = s.pcb.txSm :=
  sendflags_proj s f (·.pcb.txSm) fun _ _ _ _ _ => rfl

@[simp] theorem sendflags_txRetry : (s.sendflags f).2.pcb.txRetry = s.pcb.txRetry :=
  sendflags_proj s f (·.pcb.txRetry) fun _ _ _ _ _ => rfl

@[simp] theorem sendflags_rxSm : (s.sendflags f).2.pcb.rxSm = s.pcb.rxSm :=
  sendflags_proj s f (·.pcb.rxSm) fun _ _ _ _ _ => rfl

@[simp] theorem sendflags_rxTimeoutMs : (s.sendflags f).2.pcb.rxTimeoutMs = s.pcb.rxTimeoutMs :=
  sendflags_proj s f (·.pcb.rxTimeoutMs) fun _ _ _ _ _ => rfl

@[simp] theorem sendflags_rxWindow : (s.sendflags f).2.pcb.rxWindow = s.pcb.rxWindow :=
  sendflags_proj s f (·.pcb.rxWindow) fun _ _ _ _ _ => rfl

@[simp] theorem sendflags_txWindow : (s.sendflags f).2.pcb.txWindow = s.pcb.txWindow :=
  sendflags_proj s f (·.pcb.txWindow) fun _ _ _ _ _ => rfl

@[simp] theorem sendflags_ackTick : (s.sendflags f).2.pcb.ackTick = s.pcb.ackTick :=
  sendflags_proj s f (·.pcb.ackTick) fun _ _ _ _ _ => rfl

@[simp] theorem sendflags_rclose : (s.sendflags f).2.pcb.rclose = s.pcb.rclose :=
  sendflags_proj s f (·.pcb.rclose) fun _ _ _ _ _ => rfl

@[simp] theorem sendflags_lclose : (s.sendflags f).2.pcb.lclose = s.pcb.lclose :=
  sendflags_proj s f (·.pcb.lclose) fun _ _ _ _ _ => rfl

@[simp] theorem sendflags_inq : (s.sendflags f).2.inq = s.inq :=
  sendflags_proj s f (·.inq) fun _ _ _ _ _ => rfl

@[simp] theorem sendflags_outq : (s.sendflags f).2.outq = s.outq :=
  sendflags_proj s f (·.outq) fun _ _ _ _ _ => rfl

@[simp] theorem sendflags_opts : (s.sendflags f).2.opts = s.opts :=
  sendflags_proj s f (·.opts) fun _ _ _ _ _ => rfl

@[simp] theorem sendflags_listener : (s.sendflags f).2.listener = s.listener :=
  sendflags_proj s f (·.listener) fun _ _ _ _ _ => rfl

@[simp] theorem sendflags_localPort : (s.sendflags f).2.localPort = s.localPort :=
  sendflags_proj s f (·.localPort) fun _ _ _ _ _ => rfl

@[simp] theorem sendflags_freed : (s.sendflags f).2.freed = s.freed :=
  sendflags_proj s f (·.freed) fun _ _ _ _ _ => rfl

@[simp] theorem sendflags_stack : (s.sendflags f).2.stack = s.stack :=
  sendflags_proj s f (·.stack) fun _ _ _ _ _ => rfl

@[simp] theorem sendflags_env : (s.sendflags f).2.env = s.env :=
  sendflags_proj s f (·.env) fun _ _ _ _ _ => rfl

@[simp] theorem sendflags_accepted : (s.sendflags f).2.log.accepted = s.log.accepted :=
  sendflags_proj s f (·.log.accepted) fun _ _ _ _ _ => rfl

@[simp] theorem sendflags_received : (s.sendflags f).2.log.received = s.log.received :=
  sendflags_proj s f (·.log.received) fun _ _ _ _ _ => rfl

@[simp] theorem sendflags_acked : (s.sendflags f).2.log.acked = s.log.acked :=
  sendflags_proj s f (·.log.acked) fun _ _ _ _ _ => rfl

@[simp] theorem sendflags_disposed : (s.sendflags f).2.log.disposed = s.log.disposed :=
  sendflags_proj s f (·.log.disposed) fun _ _ _ _ _ => rfl

@[simp] theorem sendflags_posted : (s.sendflags f).2.log.posted = s.log.posted :=
  sendflags_proj s f (·.log.posted) fun _ _ _ _ _ => rfl

theorem sendflags_txTimeoutMs : (s.sendflags f).2.pcb.txTimeoutMs =
    if f.syn ∨ f.fin then s.opts.txTimeoutMs else s.pcb.txTimeoutMs := by
  obtain ⟨_, _, _, _, _, h, ht, -⟩ := sendflags_eq s f
  rw [h, ← ht]

theorem sendflags_sent : ∃ es, (s.sendflags f).2.log.sent = s.log.sent ++ es ∧ ∀ e ∈ es, e.Made ∧ e.payload = [] := by
  obtain ⟨_, _, _, _, es, h, -, hes⟩ := sendflags_eq s f
  exact ⟨es, by rw [h], hes⟩

end

/-- What `vsfip_tcp_async_send` returns and leaves, with its guards. -/
inductive SendCase (s : Sock) (b : Buf) : VsfErr × Sock → Prop
  | waited (h : s.pcb.txSm.isSome) : SendCase s b (.bug, s.release b.id)
  | closed (h : s.pcb.txSm = none) (hc : s.pcb.lclose = true) : SendCase s b (.fail, s.release b.id)
  | full (h : s.pcb.txSm = none) (hc : s.pcb.lclose = false)
      (hw : bufferlistLen s.outq + b.size > s.sendWindow) : SendCase s b (.notReady, s)
  | noRoute (h : s.pcb.txSm = none) (hc : s.pcb.lclose = false)
      (hw : ¬ bufferlistLen s.outq + b.size > s.sendWindow) (hn : s.net.netifDefault = none) :
      SendCase s b (.fail, s)
  | noRoom {netif : Netif} (h : s.pcb.txSm = none) (hc : s.pcb.lclose = false)
      (hw : ¬ bufferlistLen s.outq + b.size > s.sendWindow) (hn : s.net.netifDefault = some netif) (hr : b.room < 20) :
      SendCase s b (.fail, { s with
        outq := s.outq ++ [{ b with netif := netif, retry := 3, ttl := s.opts.txTimeoutMs.toUInt16 }]
        net := ((s.net.reference b.id).release b.id).release b.id })
  | sent {netif : Netif} {b' : Buf} (h : s.pcb.txSm = none) (hc : s.pcb.lclose = false)
      (hw : ¬ bufferlistLen s.outq + b.size > s.sendWindow) (hn : s.net.netifDefault = some netif) (hr : 20 ≤ b.room)
      (hb : b' = { b with netif := netif, retry := 3, ttl := s.opts.txTimeoutMs.toUInt16 }) :
      SendCase s b (.none, { s with
        pcb := { s.pcb with
          ackedRseq := s.pcb.rseq
          flags := if b'.size > 0 then { psh := true } else s.pcb.flags
          lseq := s.pcb.lseq + b'.size }
        outq := s.outq ++ [s.headed b' { psh := true }]
        net := ((s.net.reference b.id).ipOutput s.opts.inet (s.headed b' { psh := true })).2
        log := { s.log with sent := s.log.sent ++ [s.built b' { psh := true }] } })

theorem asyncSend_cases (s : Sock) (b : Buf) : SendCase s b (s.asyncSend b) := by
  unfold asyncSend
  by_cases h : s.pcb.txSm.isSome = true
  · rw [if_pos h]
    exact .waited h
  have h' : s.pcb.txSm = none := by simpa using h
  rw [if_neg h]
  by_cases hc : s.pcb.lclose = true
  · rw [if_pos hc]
    exact .closed h' hc
  have hc' : s.pcb.lclose = false := by simpa using hc
  rw [if_neg hc]
  by_cases hw : bufferlistLen s.outq + b.size > s.sendWindow
  · rw [if_pos hw]
    exact .full h' hc' hw
  rw [if_neg hw]
  cases hn : s.net.netifDefault with
  | none => exact .noRoute h' hc' hw hn
  | some netif =>
    dsimp only
    by_cases hr : b.room < 20
    · rw [sendDo_noRoom (f := { psh := true }) (by exact hr)]
      exact .noRoom h' hc' hw hn hr
    · rw [sendDo_sends (f := { psh := true }) (by exact not_lt.mp hr)]
      have hflags : ∀ x : Flags, (if (({ psh := true } : Flags).fin = true ∨ ({ psh := true } : Flags).syn = true ∨ b.size > 0)
          then ({ psh := true } : Flags) else x) = if b.size > 0 then { psh := true } else x := by
        intro x
        simp
      have hcase := SendCase.sent (b := b) h' hc' hw hn (not_lt.mp hr) rfl
      have hsize : ∀ n t, ({ b with netif := n, retry := 3, ttl := t } : Buf).size = b.size := fun _ _ => rfl
      rw [hsize] at hcase ⊢
      rw [hflags]
      exact hcase

/-! ### What the user's code can do -/

/-- What waiting for the user leaves: input is taken from the front, only a close changes the state. -/
structure Keeps (s s' : Sock) : Prop where
  rseq : s'.pcb.rseq = s.pcb.rseq
  rclose : s'.pcb.rclose = s.pcb.rclose
  lclose : s'.pcb.lclose = s.pcb.lclose
  opts : s'.opts = s.opts
  listener : s'.listener = s.listener
  freed : s'.freed = s.freed
  state : s'.pcb.state = s.pcb.state ∨
    (s.pcb.lclose = false ∧ s'.pcb.state = if s.pcb.rclose then .lastAck else .finWait1)
  inq : ∃ q, s.inq = q ++ s'.inq ∧ s'.log.received = s.log.received ++ q
  accepted : s'.log.accepted = s.log.accepted
  disposed : s'.log.disposed = s.log.disposed
  sent : ∃ es, s'.log.sent = s.log.sent ++ es ∧ ∀ e ∈ es, e.Made

/-- **What calls of the user do**: they add to the output queue's end. -/
structure Reacts (s s' : Sock) : Prop extends Keeps s s' where
  ackedLseq : s'.pcb.ackedLseq = s.pcb.ackedLseq
  acked : s'.log.acked = s.log.acked
  outq : ∃ q, s'.outq = s.outq ++ q

theorem Keeps.refl (s : Sock) : Keeps s s :=
  ⟨rfl, rfl, rfl, rfl, rfl, rfl, .inl rfl, ⟨[], rfl, (append_nil _).symm⟩, rfl, rfl,
    ⟨[], (append_nil _).symm, by simp⟩⟩

theorem Keeps.trans {s s' s'' : Sock} (h : Keeps s s') (h' : Keeps s' s'') : Keeps s s'' := by
  refine ⟨h'.rseq.trans h.rseq, h'.rclose.trans h.rclose, h'.lclose.trans h.lclose, h'.opts.trans h.opts,
    h'.listener.trans h.listener, h'.freed.trans h.freed, ?_, ?_, h'.accepted.trans h.accepted,
    h'.disposed.trans h.disposed, ?_⟩
  · rcases h'.state with hs | ⟨hl, hs⟩
    · rw [hs]
      exact h.state
    · rw [h.lclose] at hl
      rw [h.rclose] at hs
      exact .inr ⟨hl, hs⟩
  · obtain ⟨q, h1, h2⟩ := h.inq
    obtain ⟨q', h3, h4⟩ := h'.inq
    exact ⟨q ++ q', by rw [h1, h3, append_assoc], by rw [h4, h2, append_assoc]⟩
  · obtain ⟨es, h1, h2⟩ := h.sent
    obtain ⟨es', h3, h4⟩ := h'.sent
    refine ⟨es ++ es', by rw [h3, h1, append_assoc], fun e he => ?_⟩
    rcases mem_append.mp he with he | he
    · exact h2 e he
    · exact h4 e he

theorem Reacts.refl (s : Sock) : Reacts s s := ⟨.refl s, rfl, rfl, ⟨[], (append_nil _).symm⟩⟩

theorem Reacts.trans {s s' s'' : Sock} (h : Reacts s s') (h' : Reacts s' s'') : Reacts s s'' := by
  refine ⟨h.toKeeps.trans h'.toKeeps, h'.ackedLseq.trans h.ackedLseq, h'.acked.trans h.acked, ?_⟩
  obtain ⟨q, h1⟩ := h.outq
  obtain ⟨q', h2⟩ := h'.outq
  exact ⟨q ++ q', by rw [h2, h1, append_assoc]⟩

/-- A change of what the user's calls may change anyway. -/
theorem Reacts.of_eq {s s' : Sock} (pcb : Pcb) (hpcb : s'.pcb = pcb) (hr : pcb.rseq = s.pcb.rseq)
    (ha : pcb.ackedLseq = s.pcb.ackedLseq) (hrc : pcb.rclose = s.pcb.rclose) (hlc : pcb.lclose = s.pcb.lclose)
    (hst : pcb.state = s.pcb.state) (hi : s'.inq = s.inq) (ho : s'.outq = s.outq) (hop : s'.opts = s.opts)
    (hli : s'.listener = s.listener) (hf : s'.freed = s.freed) (hl : s'.log = s.log) : Reacts s s' := by
  subst hpcb
  refine ⟨⟨hr, hrc, hlc, hop, hli, hf, .inl hst, ⟨[], hi.symm, ?_⟩, by rw [hl], by rw [hl], ⟨[], ?_, by simp⟩⟩,
    ha, by rw [hl], ⟨[], ?_⟩⟩
  · rw [hl, append_nil]
  · rw [hl, append_nil]
  · rw [ho, append_nil]

theorem release_reacts (s : Sock) (id : ℕ) : Reacts s (s.release id) :=
  .of_eq s.pcb rfl rfl rfl rfl rfl rfl rfl rfl rfl rfl rfl rfl

theorem setTxSm_reacts (s : Sock) (sm : Option ℕ) : Reacts s { s with pcb := { s.pcb with txSm := sm } } :=
  .of_eq { s.pcb with txSm := sm } rfl rfl rfl rfl rfl rfl rfl rfl rfl rfl rfl rfl

theorem asyncSend_reacts (s : Sock) (b : Buf) : Reacts s (s.asyncSend b).2 := by
  generalize hr : s.asyncSend b = r
  have hcase := asyncSend_cases s b
  rw [hr] at hcase
  cases hcase with
  | waited => exact release_reacts s b.id
  | closed => exact release_reacts s b.id
  | full => exact .refl s
  | noRoute => exact .refl s
  | noRoom =>
    exact ⟨⟨rfl, rfl, rfl, rfl, rfl, rfl, .inl rfl, ⟨[], rfl, (append_nil _).symm⟩, rfl, rfl,
      ⟨[], (append_nil _).symm, by simp⟩⟩, rfl, rfl, ⟨_, rfl⟩⟩
  | sent =>
    refine ⟨⟨rfl, rfl, rfl, rfl, rfl, rfl, .inl rfl, ⟨[], rfl, (append_nil _).symm⟩, rfl, rfl,
      ⟨_, rfl, fun e he => ?_⟩⟩, rfl, rfl, ⟨_, rfl⟩⟩
    rw [mem_singleton.mp he]
    exact built_made _ _ _

theorem sendFlush_reacts (s : Sock) (sm : ℕ) : Reacts s (s.sendFlush sm).2.2 := by
  unfold sendFlush
  split_ifs
  · exact setTxSm_reacts s (some sm)
  · exact .refl s

theorem sendTry_reacts (s : Sock) (sm : ℕ) (b : Buf) (flush : Bool) : Reacts s (s.sendTry sm b flush).2.2 := by
  have h := asyncSend_reacts s b
  unfold sendTry
  dsimp only
  split_ifs
  · exact h.trans (release_reacts _ _)
  · exact h.trans (sendFlush_reacts _ _)
  · exact h
  · exact h.trans (setTxSm_reacts _ _)

theorem send_reacts (s : Sock) (sm : ℕ) (pc : SendPc) (evt : Evt) (b : Buf) (flush : Bool) :
    Reacts s (s.send sm pc evt b flush).2.2 := by
  unfold send
  cases pc with
  | start => exact sendTry_reacts s sm b flush
  | waiting =>
    split_ifs
    · exact release_reacts s b.id
    · exact sendTry_reacts s sm b flush
    · exact .refl s
  | flushing =>
    split_ifs
    · exact release_reacts s b.id
    · exact sendFlush_reacts s sm
    · exact .refl s

theorem asyncRecv_reacts (s : Sock) : Reacts s s.asyncRecv.2.2 := by
  unfold asyncRecv
  split_ifs
  · exact .refl s
  · exact .refl s
  · cases hq : s.inq with
    | nil => exact .refl s
    | cons b q =>
      exact ⟨⟨rfl, rfl, rfl, rfl, rfl, rfl, .inl rfl, ⟨[b], hq, rfl⟩, rfl, rfl,
        ⟨[], (append_nil _).symm, by simp⟩⟩, rfl, rfl, ⟨[], (append_nil _).symm⟩⟩

theorem recv_reacts (s : Sock) (sm : ℕ) (pc : RecvPc) (evt : Evt) : Reacts s (s.recv sm pc evt).2.2.2 := by
  have h := asyncRecv_reacts s
  unfold recv
  cases pc with
  | start =>
    dsimp only
    split_ifs
    · refine h.trans (.of_eq { s.asyncRecv.2.2.pcb with
        rxTimeoutMs := s.opts.rxTimeoutMs, rxSm := some sm } rfl rfl rfl rfl rfl rfl rfl rfl rfl rfl rfl rfl)
    · exact h
  | waiting =>
    dsimp only
    split_ifs
    · exact h
    · exact h
    · exact .refl s

theorem closeFin_reacts (s : Sock) (sm : ℕ) : Reacts s (s.closeFin sm) := by
  unfold closeFin
  refine Reacts.trans ?_ (setTxSm_reacts _ _)
  by_cases hl : s.pcb.lclose = true
  · rw [if_pos hl]
    exact .refl s
  rw [if_neg hl]
  have hl : s.pcb.lclose = false := by simpa using hl
  set u : Sock := { s with pcb := { s.pcb with lseq := s.pcb.ackedLseq, txRetry := 3 } } with hu
  obtain ⟨es, hes, hmade⟩ := sendflags_sent u { fin := true }
  refine ⟨⟨by simp [hu], by simp [hu], by simp [hu], by simp [hu], by simp [hu], by simp [hu], ?_,
    ⟨[], by simp [hu], by simp [hu]⟩, by simp [hu], by simp [hu], ⟨es, hes, fun e he => (hmade e he).1⟩⟩,
    by simp [hu], by simp [hu], ⟨[], by simp [hu]⟩⟩
  exact .inr ⟨hl, by simp [hu]⟩

theorem closeDrain_reacts (s : Sock) (sm : ℕ) : Reacts s (s.closeDrain sm).2.2 := by
  unfold closeDrain
  split_ifs
  · exact setTxSm_reacts s (some sm)
  · exact closeFin_reacts s sm

theorem close_reacts (s : Sock) (sm : ℕ) (pc : ClosePc) (evt : Evt) : Reacts s (s.close sm pc evt).2.2 := by
  unfold close
  cases pc with
  | start =>
    dsimp only
    split_ifs
    · exact .refl s
    · exact .refl s
    · exact closeDrain_reacts s sm
  | draining =>
    dsimp only
    split_ifs
    · exact closeDrain_reacts s sm
    · exact closeFin_reacts s sm
    · exact .refl s
  | closing =>
    dsimp only
    split_ifs
    · exact .refl s
    · exact .of_eq { s.pcb with lseq := s.pcb.ackedLseq } rfl rfl rfl rfl rfl rfl rfl rfl rfl rfl rfl rfl
    · exact .of_eq { s.pcb with lseq := s.pcb.ackedLseq } rfl rfl rfl rfl rfl rfl rfl rfl rfl rfl rfl rfl
    · exact .refl s

theorem exec_reacts (s : Sock) (c : Call) : Reacts s (s.exec c) := by
  cases c with
  | asyncSend b => exact asyncSend_reacts s b
  | asyncRecv => exact asyncRecv_reacts s
  | send sm pc evt b flush => exact send_reacts s sm pc evt b flush
  | recv sm pc evt => exact recv_reacts s sm pc evt
  | close sm pc evt => exact close_reacts s sm pc evt

theorem foldl_exec_reacts : ∀ (cs : List Call) (s : Sock), Reacts s (cs.foldl exec s)
  | [], s => .refl s
  | c :: cs, s => (exec_reacts s c).trans (foldl_exec_reacts cs _)

theorem react_reacts (s : Sock) : Reacts s s.react := by
  unfold react
  cases s.env with
  | nil => exact .refl s
  | cons calls env =>
    have hset : Reacts s { s with env := env } := .of_eq s.pcb rfl rfl rfl rfl rfl rfl rfl rfl rfl rfl rfl rfl
    exact hset.trans (foldl_exec_reacts calls _)

theorem postTx_reacts (s : Sock) (evt : Evt) : Reacts s (s.postTx evt) := by
  unfold postTx
  cases s.pcb.txSm with
  | none => exact .refl s
  | some sm =>
    refine Reacts.trans ?_ (react_reacts _)
    exact ⟨⟨rfl, rfl, rfl, rfl, rfl, rfl, .inl rfl, ⟨[], rfl, (append_nil _).symm⟩, rfl, rfl,
      ⟨[], (append_nil _).symm, by simp⟩⟩, rfl, rfl, ⟨[], (append_nil _).symm⟩⟩

theorem postRx_reacts (s : Sock) (evt : Evt) : Reacts s (s.postRx evt) := by
  unfold postRx
  cases s.pcb.rxSm with
  | none => exact .refl s
  | some sm =>
    refine Reacts.trans ?_ (react_reacts _)
    exact ⟨⟨rfl, rfl, rfl, rfl, rfl, rfl, .inl rfl, ⟨[], rfl, (append_nil _).symm⟩, rfl, rfl,
      ⟨[], (append_nil _).symm, by simp⟩⟩, rfl, rfl, ⟨[], (append_nil _).symm⟩⟩

end Sock
end Tcp
end Vsf
