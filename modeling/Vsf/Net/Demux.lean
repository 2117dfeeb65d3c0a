/-
# The socket a packet is for

`vsfip_proto_input` looks for a socket with the packet's port, whose local address is any or the
destination. A listener gives the packet to the child with its source, or keeps it; any other socket
takes it from its peer. The buffer goes to at most one socket, and is released if to none (`demux`).
-/
import Mathlib
import Vsf.Net.Host

namespace Vsf

open Linked Ip List Option

/-- What becomes of a packet: the sockets called, and its releases. -/
structure Delivery where
  sockets : Sockets
  handed : List Addr
  released : ℕ

namespace Sockets

variable (s : Sockets)

/-- What `vsfip_proto_input` does with its socket; `onInput` are those with a callback. -/
def handOver (onInput : Addr → Bool) : Option Addr → Delivery
  | none => ⟨s, [], 1⟩
  | some t =>
    if (s.node t).canRx = false then ⟨s, [], 1⟩
    else if onInput t then ⟨s, [t], 0⟩
    else ⟨s, [], 1⟩

/-- `vsfip_proto_input`, for a packet from `peer` to a port of the address `dst`. -/
def protoInput (onInput : Addr → Bool) (list : Option Addr) (dst : UInt32) (port : UInt16) (peer : Sockaddr) : Option Delivery :=
  (s.findLoop dst port peer walkFuel list).map (s.handOver onInput)

/-- The socket is at the packet's port and destination. -/
def At (dst : UInt32) (port : UInt16) (x : Addr) : Prop :=
  (s.node x).port = port ∧ ((s.node x).localAddr = 0 ∨ (s.node x).localAddr = dst)

/-- The peer of the socket, where it has one, is the packet's source. -/
def Agrees (peer : Sockaddr) (x : Addr) : Prop :=
  ((s.node x).remote.addr = 0 ∨ (s.node x).remote.addr = peer.addr) ∧
    ((s.node x).remote.port = 0 ∨ (s.node x).remote.port = peer.port)

instance (peer : Sockaddr) (x : Addr) : Decidable (s.Agrees peer x) := by
  unfold Agrees
  infer_instance

/-- What the socket gets of a packet that is for it. -/
def takes (onInput : Addr → Bool) (x : Addr) : List Addr := if (s.node x).canRx ∧ onInput x then [x] else []

variable {s} {dst : UInt32} {port : UInt16} {peer : Sockaddr}

/-! ### The loops -/

theorem remote_iff {y : Addr} :
    (s.node y).remote.addr = peer.addr ∧ (s.node y).remote.port = peer.port ↔ (s.node y).remote = peer := by
  rw [Sockaddr.mk.injEq (s.node y).remote.addr (s.node y).remote.port peer.addr peer.port |>.symm.to_iff]

theorem childLoop_first {y : Addr} {bs : List Addr} (hy : (s.node y).remote = peer) : ∀ (f : ℕ) (p : Option Addr) (as : List Addr),
    Chain s.next p (as ++ y :: bs) → (as ++ y :: bs).length ≤ f → (∀ z ∈ as, (s.node z).remote ≠ peer) →
    s.childLoop peer f p = some (some y)
  | 0, _, as, _, hf, _ => by simp at hf
  | f + 1, p, [], hc, _, _ => by
    obtain ⟨rfl, -⟩ := chain_cons.mp hc
    unfold childLoop
    rw [if_pos (remote_iff.mpr hy)]
  | f + 1, p, z :: as, hc, hf, has => by
    obtain ⟨rfl, hks⟩ := chain_cons.mp hc
    unfold childLoop
    rw [if_neg fun h => has z mem_cons_self (remote_iff.mp h)]
    exact childLoop_first hy f _ as hks (Nat.le_of_succ_le_succ hf) fun w hw => has w (mem_cons_of_mem _ hw)

theorem childLoop_nobody : ∀ (f : ℕ) (p : Option Addr) (ks : List Addr), Chain s.next p ks → ks.length ≤ f →
    (∀ z ∈ ks, (s.node z).remote ≠ peer) → s.childLoop peer f p = some none
  | f, p, [], hc, _, _ => by
    obtain rfl : p = none := hc
    cases f <;> rfl
  | 0, p, _ :: _, _, hf, _ => absurd hf (Nat.not_succ_le_zero _)
  | f + 1, p, z :: ks, hc, hf, hne => by
    obtain ⟨rfl, hks⟩ := chain_cons.mp hc
    unfold childLoop
    rw [if_neg fun h => hne z mem_cons_self (remote_iff.mp h)]
    exact childLoop_nobody f _ ks hks (Nat.le_of_succ_le_succ hf) fun w hw => hne w (mem_cons_of_mem _ hw)

/-- What the loop finds: a socket at the port that agrees, or a listener's child. -/
inductive Found (s : Sockets) (dst : UInt32) (port : UInt16) (peer : Sockaddr) (xs : List Addr) : Option Addr → Prop
  | normal {x} (hx : x ∈ xs) (hat : s.At dst port x) (hb : (s.node x).backlog = 0) (ha : s.Agrees peer x) :
      Found s dst port peer xs (some x)
  | listener {l c} (hl : l ∈ xs) (hat : s.At dst port l) (hb : (s.node l).backlog ≠ 0)
      (hc : s.childLoop peer walkFuel (s.node l).child = some c) : Found s dst port peer xs (some (c.getD l))
  | nobody (h : ∀ x ∈ xs, s.At dst port x → (s.node x).backlog = 0 ∧ ¬s.Agrees peer x) : Found s dst port peer xs none

theorem Found.cons {x : Addr} {xs : List Addr} {r : Option Addr} (h : Found s dst port peer xs r)
    (hx : s.At dst port x → (s.node x).backlog = 0 ∧ ¬s.Agrees peer x) : Found s dst port peer (x :: xs) r := by
  cases h with
  | normal hy hat hb ha => exact .normal (mem_cons_of_mem _ hy) hat hb ha
  | listener hl hat hb hc => exact .listener (mem_cons_of_mem _ hl) hat hb hc
  | nobody h => exact .nobody (forall_mem_cons.mpr ⟨hx, h⟩)

theorem findLoop_found (dst : UInt32) (port : UInt16) (peer : Sockaddr) : ∀ (f : ℕ) (p : Option Addr) (xs : List Addr),
    Chain s.next p xs → xs.length ≤ f → (∀ x ∈ xs, (s.node x).backlog ≠ 0 → ∃ ks, Chain s.next (s.node x).child ks) →
    ∃ r, s.findLoop dst port peer f p = some r ∧ Found s dst port peer xs r
  | f, p, [], hc, _, _ => by
    obtain rfl : p = none := hc
    exact ⟨none, by cases f <;> rfl, .nobody nofun⟩
  | 0, p, _ :: _, _, hf, _ => absurd hf (Nat.not_succ_le_zero _)
  | f + 1, p, x :: xs, hc, hf, hfamily => by
    obtain ⟨rfl, hxs⟩ := chain_cons.mp hc
    obtain ⟨r, hr, hfound⟩ := findLoop_found dst port peer f _ xs hxs (Nat.le_of_succ_le_succ hf)
      fun y hy => hfamily y (mem_cons_of_mem _ hy)
    unfold findLoop
    dsimp only
    split_ifs with hat hb ha
    · exact ⟨some x, rfl, .normal mem_cons_self hat hb ha⟩
    · exact ⟨r, hr, hfound.cons fun _ => ⟨hb, ha⟩⟩
    · obtain ⟨ks, hks⟩ := hfamily x mem_cons_self hb
      obtain ⟨c, hchild, -⟩ := childLoop_spec peer walkFuel _ ks hks hks.length_le
      rw [hchild]
      exact ⟨_, rfl, .listener mem_cons_self hat hb hchild⟩
    · exact ⟨r, hr, hfound.cons fun h => absurd h hat⟩

theorem handOver_spec (s : Sockets) (onInput : Addr → Bool) (r : Option Addr) : (s.handOver onInput r).sockets = s ∧
    ((s.handOver onInput r).handed = [] ∧ (s.handOver onInput r).released = 1 ∨
      ∃ t, (s.handOver onInput r).handed = [t] ∧ (s.handOver onInput r).released = 0) ∧
    (s.handOver onInput r).handed = (r.map (s.takes onInput)).getD [] := by
  cases r with
  | none => exact ⟨rfl, .inl ⟨rfl, rfl⟩, rfl⟩
  | some t =>
    rw [map_some, getD_some]
    unfold handOver takes
    by_cases hrx : (s.node t).canRx = false
    · simp [hrx]
    · by_cases hon : onInput t = true
      · simp [hrx, hon]
      · simp [hrx, hon]

end Sockets

/-! ### Demultiplexing -/

/-- The packet goes where it belongs: `rs` are the sockets of the list. -/
structure Demux (s : Sockets) (onInput : Addr → Bool) (rs : List Addr) (dst : UInt32) (port : UInt16) (peer : Sockaddr)
    (d : Delivery) : Prop where
  state : d.sockets = s
  once : d.handed = [] ∧ d.released = 1 ∨ ∃ t, d.handed = [t] ∧ d.released = 0
  child : ∀ l ∈ rs, s.At dst port l → (s.node l).backlog ≠ 0 → ∀ as y bs, Chain s.next (s.node l).child (as ++ y :: bs) →
    (∀ z ∈ as, (s.node z).remote ≠ peer) → (s.node y).remote = peer → d.handed = s.takes onInput y
  listener : ∀ l ∈ rs, s.At dst port l → (s.node l).backlog ≠ 0 → ∀ ks, Chain s.next (s.node l).child ks →
    (∀ z ∈ ks, (s.node z).remote ≠ peer) → d.handed = s.takes onInput l
  normal : ∀ x ∈ rs, s.At dst port x → (s.node x).backlog = 0 → d.handed = if s.Agrees peer x then s.takes onInput x else []
  other : (∀ x ∈ rs, ¬s.At dst port x) → d.handed = []

variable {s : Sockets} {onInput : Addr → Bool} {rs : List Addr} {list : Option Addr} {dst : UInt32} {port : UInt16} {peer : Sockaddr}

theorem at_unique (hports : (rs.map fun x => (s.node x).port).Nodup) {x y : Addr} (hx : x ∈ rs) (hy : y ∈ rs)
    (hatx : s.At dst port x) (haty : s.At dst port y) : x = y :=
  inj_on_of_nodup_map hports hx hy (hatx.1.trans haty.1.symm)

/-- **Demultiplexing.** -/
theorem demux (s : Sockets) (onInput : Addr → Bool) (list : Option Addr) (rs : List Addr) (hlist : Chain s.next list rs)
    (hports : (rs.map fun x => (s.node x).port).Nodup)
    (hfamily : ∀ x ∈ rs, (s.node x).backlog ≠ 0 → ∃ ks, Chain s.next (s.node x).child ks)
    (dst : UInt32) (port : UInt16) (peer : Sockaddr) :
    ∃ d, s.protoInput onInput list dst port peer = some d ∧ Demux s onInput rs dst port peer d := by
  obtain ⟨r, hr, hfound⟩ := Sockets.findLoop_found dst port peer walkFuel list rs hlist hlist.length_le hfamily
  have hone : ∀ {x y}, x ∈ rs → y ∈ rs → s.At dst port x → s.At dst port y → x = y := fun hx hy => at_unique hports hx hy
  obtain ⟨hstate, honce, hhanded⟩ := Sockets.handOver_spec s onInput r
  refine ⟨_, by rw [Sockets.protoInput, hr, map_some], hstate, honce, ?_, ?_, ?_, ?_⟩
  · intro l hl hat hb as y bs hks has hy
    rw [hhanded]
    cases hfound with
    | normal hx hatx hbx _ => exact absurd (hone hx hl hatx hat ▸ hbx) hb
    | listener hx hatx _ hc =>
      obtain rfl := hone hx hl hatx hat
      rw [Sockets.childLoop_first hy walkFuel _ as hks hks.length_le has] at hc
      cases hc
      rfl
    | nobody h => exact absurd (h l hl hat).1 hb
  · intro l hl hat hb ks hks hne
    rw [hhanded]
    cases hfound with
    | normal hx hatx hbx _ => exact absurd (hone hx hl hatx hat ▸ hbx) hb
    | listener hx hatx _ hc =>
      obtain rfl := hone hx hl hatx hat
      rw [Sockets.childLoop_nobody walkFuel _ ks hks hks.length_le hne] at hc
      cases hc
      rfl
    | nobody h => exact absurd (h l hl hat).1 hb
  · intro x hx hat hb
    rw [hhanded]
    cases hfound with
    | normal hy haty _ ha =>
      obtain rfl := hone hy hx haty hat
      rw [if_pos ha]
      rfl
    | listener hy haty hby _ => exact absurd hb (hone hy hx haty hat ▸ hby)
    | nobody h =>
      rw [if_neg (h x hx hat).2]
      rfl
  · intro hnone
    rw [hhanded]
    cases hfound with
    | normal hx hat _ _ => exact absurd hat (hnone _ hx)
    | listener hx hat _ _ => exact absurd hat (hnone _ hx)
    | nobody _ => rfl

/-! ### A listener with a local address -/

/-- A listener at port 80, with a child whose peer is port 7 of 10.0.0.7, and a socket at 81. -/
def shop (localAddr : UInt32) : Sockets where
  node := fun a =>
    match a with
    | 1 => { Node.new .tcp with localAddr := localAddr, port := 80, backlog := 4, child := some 3 }
    | 2 => { Node.new .tcp with port := 81 }
    | _ => { Node.new .tcp with port := 80, remote := ⟨0x0700000a, 7⟩ }
  next := fun a => if a = 1 then some 2 else none
  live := fun _ => true
  conns := fun _ => some 1
  ports := fun _ => 0

theorem shop_chain (a : UInt32) : Chain (shop a).next (some 1) [1, 2] := ⟨rfl, rfl, rfl⟩

theorem shop_child (a : UInt32) : Chain (shop a).next ((shop a).node 1).child [3] := ⟨rfl, rfl⟩

theorem shop_family (a : UInt32) : ∀ x ∈ [(1 : Addr), 2], ((shop a).node x).backlog ≠ 0 →
    ∃ ks, Chain (shop a).next ((shop a).node x).child ks := by
  intro x hx hb
  rcases mem_cons.mp hx with rfl | hx
  · exact ⟨_, shop_child a⟩
  · obtain rfl := mem_singleton.mp hx
    exact absurd rfl hb

theorem demux_shop :
    ∃ d, (shop 0).protoInput (fun _ => true) (some 1) 0x0100000a 80 ⟨0x0700000a, 7⟩ = some d ∧ d.handed = [3] := by
  obtain ⟨d, hd, hdemux⟩ := demux (shop 0) (fun _ => true) (some 1) [1, 2] (shop_chain 0) (by decide) (shop_family 0)
    0x0100000a 80 ⟨0x0700000a, 7⟩
  refine ⟨d, hd, ?_⟩
  exact hdemux.child 1 (by decide) ⟨rfl, .inl rfl⟩ (by decide) [] 3 [] (shop_child 0) nofun rfl

/-- A packet for 10.0.0.255 at the port of a listener at 10.0.0.1: nobody gets it. -/
theorem shop_elsewhere : Chain (shop 0x0100000a).next (some 1) [1, 2] ∧
    ([(1 : Addr), 2].map fun x => ((shop 0x0100000a).node x).port).Nodup ∧
    ((shop 0x0100000a).node 1).port = 80 ∧ ((shop 0x0100000a).node 1).backlog ≠ 0 ∧
    Chain (shop 0x0100000a).next ((shop 0x0100000a).node 1).child [3] ∧
    (∀ z ∈ [(3 : Addr)], ((shop 0x0100000a).node z).remote ≠ ⟨0x0800000a, 7⟩) ∧ ((shop 0x0100000a).node 1).canRx = true ∧
    ∃ d, (shop 0x0100000a).protoInput (fun _ => true) (some 1) 0xff00000a 80 ⟨0x0800000a, 7⟩ = some d ∧ d.handed = [] := by
  refine ⟨shop_chain _, by decide, rfl, by decide, shop_child _, ?_, rfl, ?_⟩
  · intro z hz
    obtain rfl := mem_singleton.mp hz
    simp [shop]
  · have hloop : (shop 0x0100000a).findLoop 0xff00000a 80 ⟨0x0800000a, 7⟩ walkFuel (some 1) = some none := by rfl
    exact ⟨_, by rw [Sockets.protoInput, hloop, map_some], rfl⟩

end Vsf
