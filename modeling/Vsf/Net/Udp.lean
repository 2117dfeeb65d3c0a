/-
# UDP: sending

`vsfip_udp_async_send`: every exit releases the buffer or has it put into a queue below
(`Udp.asyncSend_settled`).
-/
import Mathlib
import Vsf.Net.Output

namespace Vsf
namespace Udp

open Ip

/-- What sending needs of a UDP socket. -/
structure Socket where
  inet : Bool
  localPort : UInt16
  remote : Sockaddr
  onOutputted : Bool

/-- What UDP sockets share: the bound ports, the next port, and what is below. -/
structure Stack where
  ports : List UInt16
  udpPort : UInt16
  net : Net
  outputted : ℕ

/-- `vsfip_buffer_release`. -/
def Stack.release (st : Stack) (id : ℕ) : Stack := { st with net := st.net.release id }

/-- A local port is bound if there is none; the next port is used up even if taken. -/
def autoBind (st : Stack) (u : Socket) : Option Socket × Stack :=
  if u.localPort ≠ 0 then (some u, st)
  else
    let port := st.udpPort
    let st := { st with udpPort := st.udpPort + 1 }
    match bind st.ports port with
    | none => (none, st)
    | some ports => (some { u with localPort := port }, { st with ports := ports })

/-- `vsfip_add_udphead`; `none` when there is no room. -/
def addUdphead (b : Buf) : Option Buf :=
  if b.room < 8 then none else some { b with bufRoom := (b.room : ℤ) - 8, bufSize := b.size + 8 }

/-- `vsfip_udp_async_send` of a socket to an address. -/
def asyncSendTo (st : Stack) (u : Socket) (sockaddr : Sockaddr) (b : Buf) : VsfErr × Socket × Stack :=
  let u := { u with remote := sockaddr }
  match st.net.netifDefault with
  | none => (.fail, u, st.release b.id)
  | some netif =>
    match autoBind st u with
    | (none, st) => (.fail, u, st.release b.id)
    | (some u, st) =>
      match addUdphead { b with netif := netif } with
      | none => (.notEnoughResources, u, st.release b.id)
      | some b =>
        let r := st.net.ipOutput u.inet b
        (r.1, u, { st with
          net := r.2
          outputted := if r.1 = .none ∧ u.onOutputted then st.outputted + 1 else st.outputted })

/-- `vsfip_udp_async_send`; `none` is a null pointer. -/
def asyncSend (st : Stack) (u : Option Socket) (sockaddr : Option Sockaddr) (b : Buf) : VsfErr × Option Socket × Stack :=
  match u, sockaddr with
  | some u, some sockaddr =>
    let r := asyncSendTo st u sockaddr b
    (r.1, some r.2.1, r.2.2)
  | u, _ => (.invalidParameter, u, st.release b.id)

/-! ### Who owns the buffer -/

/-- The caller has the only reference, and no queue below has the buffer. -/
structure Given (n : Net) (id : ℕ) : Prop where
  refs : n.refs id = 1
  holders : n.holders id = 0
  stale : id ∉ n.stale

variable {st : Stack} {u : Socket} {b : Buf}

theorem autoBind_net : (autoBind st u).2.net = st.net := by
  unfold autoBind
  split_ifs
  · rfl
  · dsimp only
    split <;> rfl

theorem release_settled {n : Net} {id : ℕ} (h : Given n id) {err : VsfErr} (herr : err.negative) :
    (n.release id).Settled id ((n.release id).holders id) err := by
  have hold : Net.Holds n id (0 + 1) := ⟨by rw [h.refs, h.holders], h.stale⟩
  have hrel := hold.release
  refine ⟨?_, hrel.stale, fun _ => by rw [Net.release_holders, h.holders]⟩
  have hkept : err.kept = 0 := by
    cases err with
    | notReady => cases herr
    | _ => rfl
  rw [hrel.refs, hkept]

theorem ipOutput_settled {n : Net} (inet : Bool) (h : Given n b.id) :
    (n.ipOutput inet b).2.Settled b.id ((n.ipOutput inet b).2.holders b.id) (n.ipOutput inet b).1 := by
  have hold : Net.Holds n b.id (0 + 1) := ⟨by rw [h.refs, h.holders], h.stale⟩
  have hout := hold.ipOutput inet
  refine ⟨?_, hout.stale, fun hneg => ?_⟩
  · have hkept : (n.ipOutput inet b).1.kept = 0 := by
      unfold Net.ipOutput Net.ip4Output Net.ip6Output
      split_ifs
      · rfl
      · cases Net.addIp4head b <;> rfl
      · rfl
    rw [hout.refs, hkept]
  · revert hneg
    unfold Net.ipOutput Net.ip4Output Net.ip6Output
    split_ifs
    · exact fun _ => by rw [Net.release_holders, h.holders]
    · cases Net.addIp4head b with
      | none => exact fun _ => by rw [Net.release_holders, h.holders]
      | some b' => exact fun hneg => by cases hneg
    · exact fun _ => by rw [Net.release_holders, h.holders]

/-- **`vsfip_udp_async_send` disposes of its buffer once, whatever happens.** -/
theorem asyncSend_settled (st : Stack) (u : Option Socket) (sockaddr : Option Sockaddr) (h : Given st.net b.id) :
    (asyncSend st u sockaddr b).2.2.net.Settled b.id ((asyncSend st u sockaddr b).2.2.net.holders b.id) (asyncSend st u sockaddr b).1 := by
  unfold asyncSend
  split
  · next u sockaddr =>
    unfold asyncSendTo
    dsimp only
    cases hroute : st.net.netifDefault with
    | none => exact release_settled h rfl
    | some netif =>
      have hnet : (autoBind st { u with remote := sockaddr }).2.net = st.net := autoBind_net
      cases hbind : autoBind st { u with remote := sockaddr } with
      | mk v st' =>
        rw [hbind] at hnet
        have h' : Given st'.net b.id := by rwa [hnet]
        cases v with
        | none => exact release_settled h' rfl
        | some v =>
          dsimp only
          unfold addUdphead
          by_cases hr : b.room < 8
          · rw [if_pos hr]
            exact release_settled h' rfl
          · rw [if_neg hr]
            exact ipOutput_settled v.inet h'
  · exact release_settled h rfl

end Udp
end Vsf
