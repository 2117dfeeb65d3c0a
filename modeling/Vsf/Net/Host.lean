/-
# A host with listeners

The TCP sockets of `vsfip.c` with their control blocks: segments go to the socket they are for, a
tick goes over all, and users make sockets, listen, accept and close, in any order. The lists are in
`Sockets`, the control blocks in `Tcp.Sock`; a call loads one socket and stores it (`Host.load`,
`Host.store`). A socket is its address with how often the memory was handed out.
-/
import Mathlib
import Vsf.Lib.System
import Vsf.Net.SocketTree
import Vsf.Net.TcpListen

namespace Vsf

open Linked Ip List Option

namespace Sockets

/-- The loop of `vsfip_proto_input` over the children of a listener. -/
def childLoop (s : Sockets) (peer : Sockaddr) : ℕ → Option Addr → Option (Option Addr)
  | _, none => some none
  | 0, some _ => none
  | f + 1, some child =>
    if (s.node child).remote.addr = peer.addr ∧ (s.node child).remote.port = peer.port then some (some child)
    else s.childLoop peer f (s.next child)

/-- The loop of `vsfip_proto_input`, for a packet from `peer` to `dst` and a port. -/
def findLoop (s : Sockets) (dst : UInt32) (port : UInt16) (peer : Sockaddr) : ℕ → Option Addr → Option (Option Addr)
  | _, none => some none
  | 0, some _ => none
  | f + 1, some socket =>
    let n := s.node socket
    if n.port = port ∧ (n.localAddr = 0 ∨ n.localAddr = dst) then
      if n.backlog = 0 then
        if (n.remote.addr = 0 ∨ n.remote.addr = peer.addr) ∧ (n.remote.port = 0 ∨ n.remote.port = peer.port) then
          some (some socket)
        else s.findLoop dst port peer f (s.next socket)
      else (s.childLoop peer walkFuel n.child).map fun child => some (child.getD socket)
    else s.findLoop dst port peer f (s.next socket)

end Sockets

/-- The sockets, their control blocks, the buffers and `vsfip.tsn`; how often memory was handed out, which
sockets a user holds, and which were accepted. -/
structure Host where
  sockets : Sockets
  sock : Addr → Tcp.Sock
  net : Net
  tsn : UInt32
  cfg : Tcp.Config
  births : Addr → ℕ
  held : Addr → Bool
  returned : List (Addr × ℕ)

namespace Host

variable (h : Host)

/-- The socket `a` for a call, with as many free sockets as `free`. -/
def load (a : Addr) (free : ℕ) : Tcp.Sock := { h.sock a with
  opts := { (h.sock a).opts with father := (h.sockets.node a).father.isSome }
  listener := ⟨(h.sockets.node a).backlog, (h.sockets.node a).acceptedNum, (h.sockets.node a).closing, []⟩
  localPort := (h.sockets.node a).port
  freed := false
  stack := ⟨[], 0, h.tsn, free⟩
  net := h.net
  env := [] }

/-- The socket `a` after a call. -/
def store (a : Addr) (s : Tcp.Sock) : Host :=
  { h with sock := Function.update h.sock a s, net := s.net, tsn := s.stack.tsn }

/-- `vsfip_socket`, for TCP. -/
def socket (a : Option Addr) (pcb inet : Bool) : Host :=
  match a with
  | none => h
  | some a => { h with
      sockets := h.sockets.socket .tcp (some a) pcb
      sock := Function.update h.sock a (.new inet h.cfg ⟨[], 0, h.tsn, 0⟩ h.net)
      births := Function.update h.births a (h.births a + 1)
      held := Function.update h.held a pcb }

/-- `vsfip_listen`. -/
def listen (a : Addr) (backlog : UInt8) : Host :=
  let r := h.sockets.listen a backlog
  let s := h.sock a
  { h with
    sockets := r.2
    sock := Function.update h.sock a (if r.1 then { s with pcb := { s.pcb with state := .listen } } else s) }

/-- A user sets `tx_timeout_ms`, `rx_timeout_ms` and the callbacks. -/
def configure (a : Addr) (txTimeoutMs rxTimeoutMs : UInt32) (onInput onOutputted : Bool) : Host :=
  let s := h.sock a
  let s := { s with opts := { s.opts with txTimeoutMs, rxTimeoutMs, onInput, onOutputted } }
  { h with sock := Function.update h.sock a s }

/-- The listener `l` made the child `c`, in the memory `x`. -/
def adopt (l x : Addr) (c : Tcp.Child) (opts : Tcp.Opts) : Host := { h with
  sockets := h.sockets.adopt l x ⟨c.addr, c.port⟩
  sock := Function.update h.sock x { Tcp.Sock.new opts.inet opts.cfg ⟨[], 0, h.tsn, 0⟩ h.net with
    pcb := c.pcb
    opts := { opts with onInput := false, onOutputted := false, father := true } }
  births := Function.update h.births x (h.births x + 1)
  held := Function.update h.held x false }

/-- A segment at `t`; `x` is what `get_socket` returns, with a control block. -/
def input (t : Addr) (seg : Tcp.Seg) (x : Option Addr) : Option Host :=
  ((h.load t x.toList.length).input seg).map fun s =>
    match s.listener.children, x with
    | c :: _, some x => (h.store t s).adopt t x c s.opts
    | _, _ => h.store t s

/-- The buffer of a segment is released. -/
def discard (seg : Tcp.Seg) : Host := { h with net := h.net.release seg.buf.id }

/-- `vsfip_proto_input`, for a segment to a port of the address `dst`. -/
def protoInput (dst : UInt32) (port : UInt16) (seg : Tcp.Seg) (x : Option Addr) : Option Host :=
  (h.sockets.findLoop dst port ⟨seg.srcAddr, seg.srcPort⟩ walkFuel (h.sockets.conns .tcp)).bind fun t =>
    match t with
    | none => some (h.discard seg)
    | some t => if (h.sockets.node t).canRx then h.input t seg x else some (h.discard seg)

/-- What `vsfip_free_socket` does with the buffers and the waiting state machine. -/
def freeBuffers (a : Addr) : Host :=
  let s := (h.load a 0).closeChild
  h.store a (if s.pcb.state = .listen then s.postRx .connectfail else s)

/-- `vsfip_close`, apart from the buffers of the socket itself. -/
def unlink (a : Addr) : Option Host :=
  (h.sockets.close a).map fun s =>
    match (h.sockets.node a).father with
    | some f => if s.live f then { h with sockets := s } else freeBuffers { h with sockets := s } f
    | none => { h with sockets := s }

/-- `vsfip_close`, by a user. -/
def close (a : Addr) : Option Host :=
  (h.unlink a).map fun h =>
    let h := { h with held := Function.update h.held a false }
    if h.sockets.live a then h else h.freeBuffers a

/-- What `vsfip_tick` does with a socket; `vsfip_tcp_socket_tick` may close it. -/
def tickSocket (a : Addr) : Option Host :=
  let s := (h.load a 0).tick
  if s.freed then (h.store a s).unlink a else some (h.store a s)

/-- The loop of `vsfip_tick` over the children of a socket. -/
def tickChildren : ℕ → Host → Option Addr → Option Host
  | _, h, none => some h
  | 0, _, some _ => none
  | f + 1, h, some child => (h.tickSocket child).bind fun h => tickChildren f h (h.sockets.next child)

/-- The loop of `vsfip_tick` over `vsfip.tcpconns`. -/
def tickLoop : ℕ → Host → Option Addr → Option Host
  | _, h, none => some h
  | 0, _, some _ => none
  | f + 1, h, some socket =>
    (tickChildren walkFuel h (h.sockets.node socket).child).bind fun h =>
      (h.tickSocket socket).bind fun h => tickLoop f h (h.sockets.next socket)

/-- `VSFIP_EVT_TICK` in `vsfip_tick`. -/
def tick : Option Host := tickLoop walkFuel h (h.sockets.conns .tcp)

/-- The loop of `vsfip_tcp_accept_try`. -/
def acceptLoop : ℕ → Option Addr → Option (Option Addr)
  | _, none => some none
  | 0, some _ => none
  | f + 1, some socket =>
    if (h.sock socket).pcb.state = .established ∧ (h.sockets.node socket).accepted = false then some (some socket)
    else acceptLoop f (h.sockets.next socket)

/-- The socket `a` is returned to a user. -/
def handOut (a : Addr) : Host := { h with
  sockets := { h.sockets with node := Function.update h.sockets.node a { h.sockets.node a with accepted := true } }
  held := Function.update h.held a true
  returned := h.returned ++ [(a, h.births a)] }

/-- `vsfip_tcp_accept_try`. -/
def acceptTry (l : Addr) : Option (Option Addr × Host) :=
  (h.acceptLoop walkFuel (h.sockets.node l).child).map fun r =>
    match r with
    | some a => (some a, h.handOut a)
    | none => (none, h)

/-- `pcb->tx_sm` is set. -/
def setTxSm (l : Addr) (sm : Option ℕ) : Host :=
  let s := h.sock l
  { h with sock := Function.update h.sock l { s with pcb := { s.pcb with txSm := sm } } }

end Host

/-- Where the protothread of `vsfip_tcp_accept` waits. -/
inductive AcceptPc
  | start
  | waiting
deriving DecidableEq

namespace Host

variable (h : Host)

/-- `vsfip_tcp_accept`, from its wait: the result and the socket. -/
def accept (l : Addr) (sm : ℕ) (pc : AcceptPc) (evt : Tcp.Evt) : Option (VsfErr × Option Addr × Host) :=
  match pc with
  | .start =>
    if (h.sock l).pcb.state ≠ .listen ∨ (h.sockets.node l).closing then some (.fail, none, h)
    else if (h.sock l).pcb.txSm.isSome then some (.bug, none, h)
    else (h.acceptTry l).map fun r =>
      if r.1.isSome then (.none, r.1, r.2) else (.notReady, none, r.2.setTxSm l (some sm))
  | .waiting =>
    if evt = .connectok then
      ((h.setTxSm l none).acceptTry l).map fun r => (if r.1.isSome then .none else .bug, r.1, r.2)
    else if evt = .connectfail then some (.fail, none, h.setTxSm l none)
    else some (.notReady, none, h)

/-- What happens at a host. -/
inductive Op
  | socket (a : Option Addr) (pcb inet : Bool)
  | bind (a : Addr) (port : UInt16)
  | listen (a : Addr) (backlog : UInt8)
  | configure (a : Addr) (txTimeoutMs rxTimeoutMs : UInt32) (onInput onOutputted : Bool)
  | segment (dst : UInt32) (port : UInt16) (seg : Tcp.Seg) (x : Option Addr)
  | tick
  | accept (l : Addr) (sm : ℕ) (pc : AcceptPc) (evt : Tcp.Evt)
  | close (a : Addr)

/-- The host afterwards; `none` when a loop does not end. -/
def exec : Op → Option Host
  | .socket a pcb inet => some (h.socket a pcb inet)
  | .bind a port => (h.sockets.bind a port).map fun r => { h with sockets := r.2 }
  | .listen a backlog => some (h.listen a backlog)
  | .configure a tx rx onInput onOutputted => some (h.configure a tx rx onInput onOutputted)
  | .segment dst port seg x => h.protoInput dst port seg x
  | .tick => h.tick
  | .accept l sm pc evt => (h.accept l sm pc evt).map fun r => r.2.2
  | .close a => h.close a

/-- `get_socket` returns an unused socket; a user uses those he holds, binds roots without a port, listens
at roots, and accepts at those in use. -/
def Legal : Op → Prop
  | .socket a _ _ => ∀ x, a = some x → h.sockets.live x = false
  | .bind a port => h.held a ∧ (h.sockets.node a).father = none ∧ (h.sockets.node a).port = 0 ∧ port ≠ 0
  | .listen a _ => h.held a ∧ (h.sockets.node a).father = none
  | .configure a _ _ _ _ => h.held a
  | .segment _ _ _ x => ∀ y, x = some y → h.sockets.live y = false
  | .tick => True
  | .accept l _ _ _ => h.sockets.Root l
  | .close a => h.held a

/-- After `vsfip_init`. -/
structure Start : Prop where
  live : ∀ a, h.sockets.live a = false
  conns : h.sockets.conns .tcp = none
  held : ∀ a, h.held a = false
  returned : h.returned = []

/-- All runs of a host. -/
def system : System Host Op where
  start := Start
  step h op h' := h.Legal op ∧ h.exec op = some h'

/-! ### What the loops find -/

/-- `vsfip_tcp_accept_try` finds an open child not returned, if any. -/
theorem acceptLoop_spec : ∀ (f : ℕ) (p : Option Addr) (ks : List Addr), Chain h.sockets.next p ks → ks.length ≤ f →
    ∃ r, h.acceptLoop f p = some r ∧ ∀ a, r = some a →
      a ∈ ks ∧ (h.sock a).pcb.state = .established ∧ (h.sockets.node a).accepted = false
  | f, p, [], hc, _ => by
    obtain rfl : p = none := hc
    exact ⟨none, by cases f <;> rfl, nofun⟩
  | 0, p, _ :: _, _, hf => absurd hf (Nat.not_succ_le_zero _)
  | f + 1, p, x :: ks, hc, hf => by
    obtain ⟨rfl, hks⟩ := chain_cons.mp hc
    unfold acceptLoop
    split_ifs with hx
    · refine ⟨some x, rfl, fun a ha => ?_⟩
      obtain rfl := some.inj ha
      exact ⟨mem_cons_self, hx⟩
    · obtain ⟨r, hr, hspec⟩ := acceptLoop_spec f _ ks hks (Nat.le_of_succ_le_succ hf)
      exact ⟨r, hr, fun a ha => ⟨mem_cons_of_mem _ (hspec a ha).1, (hspec a ha).2⟩⟩

end Host

namespace Sockets

variable {s : Sockets} {rs ks : List Addr} {l : Addr}

theorem childLoop_spec (peer : Sockaddr) : ∀ (f : ℕ) (p : Option Addr) (ks : List Addr), Chain s.next p ks → ks.length ≤ f →
    ∃ r, s.childLoop peer f p = some r ∧ (∀ x, r = some x → x ∈ ks) ∧ (r = none → ∀ x ∈ ks, (s.node x).remote ≠ peer)
  | f, p, [], hc, _ => by
    obtain rfl : p = none := hc
    exact ⟨none, by cases f <;> rfl, nofun, fun _ x hx => absurd hx not_mem_nil⟩
  | 0, p, _ :: _, _, hf => absurd hf (Nat.not_succ_le_zero _)
  | f + 1, p, y :: ks, hc, hf => by
    obtain ⟨rfl, hks⟩ := chain_cons.mp hc
    unfold childLoop
    split_ifs with hy
    · refine ⟨some y, rfl, fun x hx => ?_, nofun⟩
      obtain rfl := some.inj hx
      exact mem_cons_self
    · obtain ⟨r, hr, hmem, hnone⟩ := childLoop_spec peer f _ ks hks (Nat.le_of_succ_le_succ hf)
      refine ⟨r, hr, fun x hx => mem_cons_of_mem _ (hmem x hx), fun h0 x hx => ?_⟩
      rcases mem_cons.mp hx with rfl | hx
      · exact fun he => hy (by rw [he]; exact ⟨rfl, rfl⟩)
      · exact hnone h0 x hx

/-- Where a packet goes: a socket in use, a listener only if no child has that peer. -/
structure Target (s : Sockets) (peer : Sockaddr) (t : Addr) : Prop where
  live : s.live t
  fresh : (s.node t).acceptedNum < (s.node t).backlog → s.Root t ∧ ∀ y, s.Kid t y → (s.node y).remote ≠ peer

theorem not_lt_zero (a : UInt8) : ¬ a < 0 := fun h => Nat.not_lt_zero _ (UInt8.lt_iff_toNat_lt.mp h)

theorem Tree.findLoop (h : s.Tree rs) (dst : UInt32) (port : UInt16) (peer : Sockaddr) : ∀ (f : ℕ) (p : Option Addr)
    (xs : List Addr), Chain s.next p xs → xs.length ≤ f → (∀ x ∈ xs, s.Root x) →
    ∃ r, s.findLoop dst port peer f p = some r ∧ ∀ t, r = some t → s.Target peer t
  | f, p, [], hc, _, _ => by
    obtain rfl : p = none := hc
    exact ⟨none, by cases f <;> rfl, nofun⟩
  | 0, p, _ :: _, _, hf, _ => absurd hf (Nat.not_succ_le_zero _)
  | f + 1, p, x :: xs, hc, hf, hroots => by
    obtain ⟨rfl, hxs⟩ := chain_cons.mp hc
    have hx : s.Root x := hroots x mem_cons_self
    have hrest := h.findLoop dst port peer f _ xs hxs (Nat.le_of_succ_le_succ hf) fun y hy => hroots y (mem_cons_of_mem _ hy)
    unfold Sockets.findLoop
    dsimp only
    split_ifs with hport hb hr
    · refine ⟨some x, rfl, fun t ht => ?_⟩
      obtain rfl := some.inj ht
      exact ⟨hx.1, fun hlt => absurd (hb ▸ hlt) (not_lt_zero _)⟩
    · exact hrest
    · obtain ⟨ks, hks⟩ := h.family x hx
      obtain ⟨r, hr, hmem, hnone⟩ := childLoop_spec peer walkFuel _ ks hks.chain hks.chain.length_le
      rw [hr]
      refine ⟨some (r.getD x), rfl, fun t ht => ?_⟩
      obtain rfl := some.inj ht
      cases r with
      | none => exact ⟨hx.1, fun _ => ⟨hx, fun y hy => hnone rfl y ((hks.mem y).mpr hy)⟩⟩
      | some y =>
        have hk := (hks.mem y).mp (hmem y rfl)
        have hb0 := (h.father x y hk).2
        exact ⟨hk.1, fun hlt => absurd (hb0 ▸ hlt) (not_lt_zero _)⟩
    · exact hrest

/-- **`vsfip_proto_input` finds the socket.** -/
theorem Tree.find (h : s.Tree rs) (dst : UInt32) (port : UInt16) (peer : Sockaddr) :
    ∃ r, s.findLoop dst port peer walkFuel (s.conns .tcp) = some r ∧ ∀ t, r = some t → s.Target peer t := by
  refine h.findLoop dst port peer walkFuel _ rs h.listed.chain h.listed.chain.length_le fun x hx => ?_
  have hb := (h.listed.mem x).mp hx
  exact ⟨hb.1, hb.2.1⟩

end Sockets
end Vsf
