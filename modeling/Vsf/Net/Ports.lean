/-
# Bound sockets and ephemeral ports

Users make sockets, bind them, have them bound, and close them, in any order. The two lists stay
chains of the bound sockets, with distinct ports, as long as no automatic bind comes when the 16-bit
port counter has come around to 0: bound to port 0 a socket still looks unbound (`lists_hold`), and
the next automatic bind links it to itself (`bound_to_itself`).
-/
import Mathlib
import Vsf.Lib.System
import Vsf.Net.Sockets

namespace Vsf

open Linked Ip List Function Option

/-- The sockets, with the ports the automatic binds have asked for. -/
structure Book where
  sockets : Sockets
  autoPorts : List UInt16

namespace Book

/-- A user's call; `route` is what `vsfip_ip_route` finds, `closed` if closed with nobody waiting. -/
inductive Op
  | socket (p : Proto) (a : Option Addr) (pcb : Bool)
  | bind (a : Addr) (port : UInt16)
  | udpAsyncSend (a : Addr) (sockaddr : Sockaddr) (route : Bool)
  | tcpConnect (a : Addr) (sockaddr : Sockaddr) (closed : Bool)
  | close (a : Addr)

/-- `socket->remote_sockaddr = *sockaddr`. -/
def setRemote (s : Sockets) (a : Addr) (sockaddr : Sockaddr) : Sockets :=
  { s with node := Function.update s.node a { s.node a with remote := sockaddr } }

/-- The automatic bind, with the port it asks for. -/
def autoBind (b : Book) (p : Proto) (a : Addr) : Option Book :=
  (b.sockets.autoBind p a).map fun r =>
    ⟨r.2, if (b.sockets.node a).port = 0 then b.autoPorts ++ [b.sockets.ports p] else b.autoPorts⟩

/-- A call; `none` when it does not return. -/
def exec (b : Book) : Op → Option Book
  | .socket p a pcb => some { b with sockets := b.sockets.socket p a pcb }
  | .bind a port => (b.sockets.bind a port).map fun r => { b with sockets := r.2 }
  | .udpAsyncSend a sockaddr route =>
    let b := { b with sockets := setRemote b.sockets a sockaddr }
    if route then b.autoBind .udp a else some b
  | .tcpConnect a sockaddr closed =>
    if closed then Book.autoBind { b with sockets := setRemote b.sockets a sockaddr } .tcp a else some b
  | .close a => (b.sockets.close a).map fun s => { b with sockets := s }

/-- `get_socket` returns an unused socket, calls are on those in use, and only one without a port is bound,
not to 0. -/
def Legal (b : Book) : Op → Prop
  | .socket _ a _ => ∀ x, a = some x → b.sockets.live x = false
  | .bind a port => b.sockets.live a ∧ (b.sockets.node a).port = 0 ∧ port ≠ 0
  | .udpAsyncSend a _ _ => b.sockets.live a ∧ (b.sockets.node a).protocol = .udp
  | .tcpConnect a _ _ => b.sockets.live a ∧ (b.sockets.node a).protocol = .tcp
  | .close a => b.sockets.live a

/-- After `vsfip_init`. -/
structure Start (b : Book) : Prop where
  live : ∀ a, b.sockets.live a = false
  conns : ∀ p, b.sockets.conns p = none
  ports : ∀ p, b.sockets.ports p = 40000
  autoPorts : b.autoPorts = []

/-- The calls of the users, in any order. -/
def calls : System Book Op where
  start := Start
  step b op b' := b.Legal op ∧ b.exec op = some b'

end Book

/-! ### The lists -/

/-- A root socket of the protocol with a port. -/
def Sockets.Bound (s : Sockets) (p : Proto) (a : Addr) : Prop :=
  s.live a ∧ (s.node a).father = none ∧ (s.node a).protocol = p ∧ (s.node a).port ≠ 0

/-- A protocol's list is the chain `xs` of bound sockets, with distinct ports. -/
structure Listed (s : Sockets) (p : Proto) (xs : List Addr) : Prop where
  chain : Chain s.next (s.conns p) xs
  mem : ∀ a, a ∈ xs ↔ s.Bound p a
  ports : (xs.map fun x => (s.node x).port).Nodup

/-- Both lists are as they should be and no automatic bind asked for port 0. -/
structure Book.Lists (b : Book) : Prop where
  listed : ∀ p, ∃ xs, Listed b.sockets p xs
  auto : 0 ∉ b.autoPorts

variable {s s' : Sockets} {p q : Proto} {xs : List Addr}

theorem Listed.of_eq (h : Listed s p xs) (hc : s'.conns p = s.conns p) (hn : ∀ x ∈ xs, s'.next x = s.next x)
    (hb : ∀ a, s'.Bound p a ↔ s.Bound p a) (hp : ∀ x ∈ xs, (s'.node x).port = (s.node x).port) :
    Listed s' p xs := by
  refine ⟨?_, fun a => (h.mem a).trans (hb a).symm, ?_⟩
  · rw [hc]
    exact h.chain.congr hn
  · rw [map_congr_left hp]
    exact h.ports

theorem Listed.ne_of_bound {a x : Addr} (h : Listed s p xs) (hx : x ∈ xs)
    (ha : ¬ s.Bound p a) : x ≠ a := fun he => ha (he ▸ (h.mem x).mp hx)

theorem Listed.socket (h : Listed s p xs) {q : Proto} {a : Option Addr} (pcb : Bool)
    (ha : ∀ x, a = some x → s.live x = false) : Listed (s.socket q a pcb) p xs := by
  cases a with
  | none => exact h
  | some a =>
    have hnot : ¬ s.Bound p a := fun hb => by
      have := hb.1
      rw [ha a rfl] at this
      cases this
    have hne : ∀ x ∈ xs, x ≠ a := fun x hx => h.ne_of_bound hx hnot
    refine h.of_eq rfl (fun x hx => update_of_ne (hne x hx) _ _) (fun x => ?_) fun x hx => ?_
    · by_cases hxa : x = a
      · subst hxa
        refine ⟨fun hb => ?_, fun hb => absurd hb hnot⟩
        exact absurd (show (Function.update s.node x (Node.new q) x).port = 0 by rw [update_self]; rfl) hb.2.2.2
      · unfold Sockets.Bound Sockets.socket
        simp only [update_of_ne hxa]
    · show (Function.update s.node a (Node.new q) x).port = _
      rw [update_of_ne (hne x hx)]

theorem Listed.setRemote (h : Listed s p xs) (a : Addr) (sockaddr : Sockaddr) :
    Listed (Book.setRemote s a sockaddr) p xs := by
  have hnode : ∀ x, ((Book.setRemote s a sockaddr).node x).father = (s.node x).father ∧
      ((Book.setRemote s a sockaddr).node x).protocol = (s.node x).protocol ∧
      ((Book.setRemote s a sockaddr).node x).port = (s.node x).port := by
    intro x
    unfold Book.setRemote
    by_cases hx : x = a
    · subst hx
      simp
    · simp [update_of_ne hx]
  refine h.of_eq rfl (fun _ _ => rfl) (fun x => ?_) fun x _ => (hnode x).2.2
  unfold Sockets.Bound
  rw [(hnode x).1, (hnode x).2.1, (hnode x).2.2]
  exact Iff.rfl

theorem Listed.getPort (h : Listed s p xs) (q : Proto) : Listed (s.getPort q).2 p xs :=
  h.of_eq rfl (fun _ _ => rfl) (fun _ => Iff.rfl) fun _ _ => rfl

/-- `vsfip_bind` of a socket without a port: the port is taken, or it is the new head. -/
structure Headed (s : Sockets) (a : Addr) (port : UInt16) (s' : Sockets) : Prop where
  next : s'.next = Function.update s.next a (s.conns (s.node a).protocol)
  conns : s'.conns = Function.update s.conns (s.node a).protocol (some a)
  node : s'.node = Function.update s.node a { s.node a with port := port }
  live : s'.live = s.live
  free : ∀ x, s.Bound (s.node a).protocol x → (s.node x).port ≠ port

theorem Listed.bind_eq {a : Addr} (h : Listed s (s.node a).protocol xs) (port : UInt16) :
    ∃ r, s.bind a port = some r ∧ (r = (false, s) ∨ r.1 = true ∧ Headed s a port r.2) := by
  unfold Sockets.bind
  dsimp only
  rw [Sockets.bindLoop_spec s port walkFuel _ xs h.chain h.chain.length_le]
  by_cases hx : ∃ x ∈ xs, (s.node x).port = port
  · exact ⟨_, rfl, .inl (by simp [hx])⟩
  · refine ⟨_, rfl, .inr ?_⟩
    simp only [hx, decide_false, Bool.false_eq_true, if_false, true_and]
    exact ⟨rfl, rfl, rfl, rfl, fun x hb he => hx ⟨x, (h.mem x).mpr hb, he⟩⟩

/-- **A socket is bound to a free port**, in front of its list only. -/
theorem Listed.bind {a : Addr} (h : Listed s q xs) {port : UInt16} (hb : Headed s a port s')
    (hlive : s.live a) (hroot : (s.node a).father = none) (h0 : (s.node a).port = 0) (hport : port ≠ 0) :
    Listed s' q (if q = (s.node a).protocol then a :: xs else xs) := by
  have hnot : ∀ p, ¬ s.Bound p a := fun p hb => hb.2.2.2 h0
  have hne : ∀ x ∈ xs, x ≠ a := fun x hx => h.ne_of_bound hx (hnot q)
  have hsame : ∀ x, x ≠ a → s'.node x = s.node x := fun x hx => by rw [hb.node, update_of_ne hx]
  have hself : s'.node a = { s.node a with port := port } := by rw [hb.node, update_self]
  have hports : (xs.map fun x => (s'.node x).port) = xs.map fun x => (s.node x).port :=
    map_congr_left fun x hx => by rw [hsame x (hne x hx)]
  have hbound : ∀ x, x ≠ a → (s'.Bound q x ↔ s.Bound q x) := fun x hx => by
    unfold Sockets.Bound
    rw [hb.live, hsame x hx]
  by_cases hq : q = (s.node a).protocol
  · rw [if_pos hq]
    subst hq
    refine ⟨?_, fun x => ?_, ?_⟩
    · rw [hb.conns, update_self, hb.next]
      exact h.chain.push fun hm => hne a hm rfl
    · rw [mem_cons, h.mem]
      by_cases hx : x = a
      · subst hx
        refine iff_of_true (.inl rfl) ⟨hb.live ▸ hlive, ?_, ?_, ?_⟩
        · rw [hself]; exact hroot
        · rw [hself]
        · rw [hself]; exact hport
      · rw [hbound x hx]
        exact or_iff_right hx
    · rw [map_cons, hports, nodup_cons]
      refine ⟨fun hm => ?_, h.ports⟩
      obtain ⟨x, hx, he⟩ := List.mem_map.mp hm
      exact hb.free x ((h.mem x).mp hx) (by rw [he, hself])
  · rw [if_neg hq]
    refine h.of_eq ?_ (fun x hx => ?_) (fun x => ?_) fun x hx => by rw [hsame x (hne x hx)]
    · rw [hb.conns, update_of_ne hq]
    · rw [hb.next, update_of_ne (hne x hx)]
    · by_cases hx : x = a
      · subst hx
        refine iff_of_false (fun hc => hq ?_) (hnot q)
        have := hc.2.2.1
        rw [hself] at this
        exact this.symm
      · exact hbound x hx

/-- **A root socket is freed**: it is in no list, and the other sockets stay. -/
theorem Listed.free {a : Addr} (h : Listed s (s.node a).protocol xs) (hroot : (s.node a).father = none) :
    ∃ s', s.freeSocket a = some s' ∧ s'.node = s.node ∧ s'.live = Function.update s.live a false ∧
      s'.ports = s.ports ∧ (∀ x, x ∉ xs ∨ x = a → s'.next x = s.next x) ∧
      ∀ q ys, Listed s q ys → Listed s' q (ys.erase a) := by
  obtain ⟨r, hr, hrem⟩ := socketlistRemove_spec h.chain a
  unfold Sockets.freeSocket
  rw [hroot, hr]
  refine ⟨_, rfl, rfl, rfl, rfl, hrem.frame, fun q ys hys => ?_⟩
  have hnd := hys.chain.nodup
  have hbound : ∀ x, Sockets.Bound ⟨s.node, r.2.2, Function.update s.live a false,
      Function.update s.conns (s.node a).protocol r.2.1, s.ports⟩ q x ↔ x ≠ a ∧ s.Bound q x := fun x => by
    unfold Sockets.Bound
    by_cases hx : x = a
    · subst hx
      simp
    · simp [hx]
  refine ⟨?_, fun x => ?_, ?_⟩
  · by_cases hq : q = (s.node a).protocol
    · subst hq
      obtain rfl := hys.chain.unique h.chain
      simpa using hrem.chain
    · have hna : a ∉ ys := fun hm => hq ((hys.mem a).mp hm).2.2.1.symm
      rw [erase_of_not_mem hna]
      have hchain := hys.chain
      simp only [update_of_ne hq]
      refine hchain.congr fun x hx => hrem.frame x (.inl fun hm => hq ?_)
      exact ((hys.mem x).mp hx).2.2.1.symm.trans ((h.mem x).mp hm).2.2.1
  · rw [hnd.mem_erase_iff, hys.mem, hbound]
  · exact hys.ports.sublist (erase_sublist.map _)

namespace Book

variable {b b' : Book}

/-- A root socket that is no listener. -/
def Plain (n : Node) : Prop := n.father = none ∧ n.backlog = 0

/-- All sockets in use are roots and none is a listener. -/
structure Inv (b : Book) : Prop extends b.Lists where
  plain : ∀ a, b.sockets.live a → Plain (b.sockets.node a)

/-- No automatic bind with the port counter at 0. -/
def PortLeft (b : Book) : Op → Prop
  | .udpAsyncSend a _ route => route → (b.sockets.node a).port = 0 → b.sockets.ports .udp ≠ 0
  | .tcpConnect a _ closed => closed → (b.sockets.node a).port = 0 → b.sockets.ports .tcp ≠ 0
  | _ => True

theorem Start.inv (h : Start b) : b.Inv where
  listed p := ⟨[], ⟨h.conns p, fun a => by simp [Sockets.Bound, h.live a], nodup_nil⟩⟩
  auto := by rw [h.autoPorts]; exact not_mem_nil
  plain a ha := by rw [h.live a] at ha; cases ha

theorem plain_update {node : Addr → Node} {live : Addr → Bool} (h : ∀ x, live x → Plain (node x)) {a : Addr} {n : Node}
    (hn : Plain n) : ∀ x, live x → Plain (Function.update node a n x) := by
  intro x hx
  by_cases hxa : x = a
  · rw [hxa, update_self]; exact hn
  · rw [update_of_ne hxa]; exact h x hx

theorem setRemote_inv (h : b.Inv) {a : Addr} (hlive : b.sockets.live a) (sockaddr : Sockaddr) :
    Inv { b with sockets := setRemote b.sockets a sockaddr } where
  listed p := (h.listed p).imp fun _ hxs => hxs.setRemote a sockaddr
  auto := h.auto
  plain := plain_update h.plain (h.plain a hlive)

theorem bind_inv (h : b.Inv) {a : Addr} (hlive : b.sockets.live a) (h0 : (b.sockets.node a).port = 0)
    {port : UInt16} (hport : port ≠ 0) :
    ∃ r, b.sockets.bind a port = some r ∧ Inv { b with sockets := r.2 } := by
  obtain ⟨xs, hxs⟩ := h.listed (b.sockets.node a).protocol
  obtain ⟨r, hr, hcase⟩ := hxs.bind_eq port
  refine ⟨r, hr, ?_⟩
  rcases hcase with rfl | ⟨-, hb⟩
  · exact h
  refine ⟨⟨fun p => ?_, h.auto⟩, fun x hx => ?_⟩
  · obtain ⟨ys, hys⟩ := h.listed p
    exact ⟨_, hys.bind hb hlive (h.plain a hlive).1 h0 hport⟩
  · show Plain (r.2.node x)
    rw [hb.node]
    have hplain : Plain { b.sockets.node a with port := port } := h.plain a hlive
    exact plain_update h.plain hplain x (hb.live ▸ hx)

/-- An automatic bind keeps the lists just when the counter is not at 0. -/
theorem autoBind_inv (h : b.Inv) (p : Proto) {a : Addr} (hlive : b.sockets.live a) :
    ∃ b', b.autoBind p a = some b' ∧ (((b.sockets.node a).port = 0 → b.sockets.ports p ≠ 0) → b'.Inv) ∧
      (b'.Lists → (b.sockets.node a).port = 0 → b.sockets.ports p ≠ 0) := by
  unfold autoBind Sockets.autoBind
  by_cases h0 : (b.sockets.node a).port = 0
  · have hget : Inv ⟨(b.sockets.getPort p).2, b.autoPorts⟩ :=
      ⟨⟨fun q => (h.listed q).imp fun _ hxs => hxs.getPort p, h.auto⟩, h.plain⟩
    obtain ⟨xs, hxs⟩ := h.listed (b.sockets.node a).protocol
    obtain ⟨r, hr, -⟩ := (hxs.getPort p).bind_eq (a := a) (b.sockets.getPort p).1
    refine ⟨⟨r.2, b.autoPorts ++ [b.sockets.ports p]⟩, by simp only [h0, if_true, hr]; rfl, fun hne => ?_, fun hl _ he => ?_⟩
    · obtain ⟨r', hr', hinv⟩ := bind_inv hget hlive h0 (hne h0)
      obtain rfl := some.inj (hr.symm.trans hr')
      refine ⟨⟨hinv.listed, ?_⟩, hinv.plain⟩
      show 0 ∉ b.autoPorts ++ [b.sockets.ports p]
      rw [mem_append, mem_singleton]
      exact fun hm => hm.elim h.auto fun he => hne h0 he.symm
    · have hmem : b.sockets.ports p ∈ b.autoPorts ++ [b.sockets.ports p] :=
        mem_append_right _ (mem_singleton_self _)
      exact hl.auto (he ▸ hmem)
  · exact ⟨b, by simp [h0], fun _ => h, fun _ hc => absurd hc h0⟩

theorem socket_inv (h : b.Inv) {p : Proto} {a : Option Addr} {pcb : Bool} (hl : b.Legal (.socket p a pcb)) :
    Inv { b with sockets := b.sockets.socket p a pcb } := by
  refine ⟨⟨fun q => (h.listed q).imp fun _ hxs => hxs.socket pcb hl, h.auto⟩, ?_⟩
  cases a with
  | none => exact h.plain
  | some a =>
    intro x hx
    show Plain (Function.update b.sockets.node a (Node.new p) x)
    by_cases hxa : x = a
    · rw [hxa, update_self]
      exact ⟨rfl, rfl⟩
    · have hlive : b.sockets.live x := by simpa [Sockets.socket, update_of_ne hxa] using hx
      rw [update_of_ne hxa]
      exact h.plain x hlive

theorem close_inv (h : b.Inv) {a : Addr} (hl : b.sockets.live a) :
    ∃ s, b.sockets.close a = some s ∧ Inv { b with sockets := s } := by
  obtain ⟨xs, hxs⟩ := h.listed (b.sockets.node a).protocol
  obtain ⟨s', hs, hnode, hlive, -, -, hlisted⟩ := hxs.free (h.plain a hl).1
  refine ⟨s', ?_, ⟨fun q => ?_, h.auto⟩, fun x hx => ?_⟩
  · unfold Sockets.close
    rw [if_neg (by rw [(h.plain a hl).2]; exact fun hc => absurd hc.1 (by decide)), (h.plain a hl).1]
    exact hs
  · obtain ⟨ys, hys⟩ := h.listed q
    exact ⟨_, hlisted q ys hys⟩
  · have hx : Function.update b.sockets.live a false x := hlive ▸ hx
    show Plain (s'.node x)
    rw [hnode]
    by_cases hxa : x = a
    · rw [hxa, update_self] at hx
      cases hx
    · rw [update_of_ne hxa] at hx
      exact h.plain x hx

/-- **One call** returns, and keeps the lists exactly if it is no automatic bind with the counter at 0. -/
theorem exec_lists (h : b.Inv) {op : Op} (hl : b.Legal op) :
    ∃ b', b.exec op = some b' ∧ (b.PortLeft op → b'.Inv) ∧ (b'.Lists → b.PortLeft op) := by
  cases op with
  | socket p a pcb => exact ⟨_, rfl, fun _ => socket_inv h hl, fun _ => trivial⟩
  | bind a port =>
    obtain ⟨r, hr, hinv⟩ := bind_inv h hl.1 hl.2.1 hl.2.2
    exact ⟨_, by rw [exec, hr]; rfl, fun _ => hinv, fun _ => trivial⟩
  | udpAsyncSend a sockaddr route =>
    have hrem := setRemote_inv h hl.1 sockaddr
    cases route with
    | false => exact ⟨_, rfl, fun _ => hrem, fun _ hr => absurd hr (by decide)⟩
    | true =>
      have hself : (setRemote b.sockets a sockaddr).node a = { b.sockets.node a with remote := sockaddr } :=
        update_self ..
      obtain ⟨b', h1, h2, h3⟩ := autoBind_inv hrem .udp (a := a) hl.1
      rw [hself] at h2 h3
      exact ⟨b', h1, fun hp => h2 (hp rfl), fun hls _ => h3 hls⟩
  | tcpConnect a sockaddr closed =>
    have hrem := setRemote_inv h hl.1 sockaddr
    cases closed with
    | false => exact ⟨_, rfl, fun _ => h, fun _ hr => absurd hr (by decide)⟩
    | true =>
      have hself : (setRemote b.sockets a sockaddr).node a = { b.sockets.node a with remote := sockaddr } :=
        update_self ..
      obtain ⟨b', h1, h2, h3⟩ := autoBind_inv hrem .tcp (a := a) hl.1
      rw [hself] at h2 h3
      exact ⟨b', h1, fun hp => h2 (hp rfl), fun hls _ => h3 hls⟩
  | close a =>
    obtain ⟨s, hs, hinv⟩ := close_inv h hl
    exact ⟨_, by rw [exec, hs]; rfl, fun _ => hinv, fun _ => trivial⟩

theorem reach_inv (h : (calls.restrict PortLeft).Reach b) : b.Inv := by
  refine h.invariant (fun b hb => Start.inv hb) fun b op b' _ hinv hs => ?_
  obtain ⟨b'', h1, h2, -⟩ := exec_lists hinv hs.2.1
  obtain rfl := some.inj (h1.symm.trans hs.2.2)
  exact h2 hs.1

/-- **The lists hold in every run without an automatic bind at a counter of 0**; each call then returns, and
keeps them exactly if it is none. -/
theorem lists_hold (h : (calls.restrict PortLeft).Reach b) :
    b.Lists ∧ ∀ op, b.Legal op → ∃ b', b.exec op = some b' ∧ (b'.Lists ↔ b.PortLeft op) := by
  have hinv := reach_inv h
  refine ⟨hinv.toLists, fun op hl => ?_⟩
  obtain ⟨b', h1, h2, h3⟩ := exec_lists hinv hl
  exact ⟨b', h1, h3, fun hp => (h2 hp).toLists⟩

/-! ### The counter comes around -/

/-- Nothing in use. -/
def fresh : Book :=
  ⟨⟨fun _ => Node.new .udp, fun _ => none, fun _ => false, fun _ => none, fun _ => 40000⟩, []⟩

theorem fresh_start : Start fresh := ⟨fun _ => rfl, fun _ => rfl, fun _ => rfl, rfl⟩

/-- A UDP socket that sends is bound to port 40000. -/
theorem lists_hold_sent : ∃ b : Book, b.autoPorts = [40000] ∧ b.Lists ∧
    ∀ op, b.Legal op → ∃ b', b.exec op = some b' ∧ (b'.Lists ↔ b.PortLeft op) := by
  have h1 : (calls.restrict PortLeft).Reach { fresh with sockets := fresh.sockets.socket .udp (some 16) true } :=
    (System.Reach.start fresh_start).step (i := .socket .udp (some 16) true) ⟨trivial, fun _ _ => rfl, rfl⟩
  obtain ⟨b, hb, -, -⟩ : ∃ b', exec _ (.udpAsyncSend 16 ⟨0xc0a80001, 53⟩ true) = some b' ∧ _ :=
    exec_lists (reach_inv h1) ⟨rfl, rfl⟩
  have hauto : b.autoPorts = [40000] := by
    simp only [exec, if_true, autoBind, map_eq_some_iff] at hb
    obtain ⟨r, -, rfl⟩ := hb
    rfl
  exact ⟨b, hauto, lists_hold (h1.step (i := .udpAsyncSend 16 ⟨0xc0a80001, 53⟩ true)
    ⟨fun _ _ => by decide, ⟨rfl, rfl⟩, hb⟩)⟩

/-- Socket 16, with the UDP list empty: made, and bound to the next port. -/
def made (b : Book) : Book := { b with sockets := b.sockets.socket .udp (some 16) true }

def sent (b : Book) : Book where
  sockets := { (made b).sockets with
    node := Function.update (setRemote (made b).sockets 16 ⟨1, 1⟩).node 16
      { (setRemote (made b).sockets 16 ⟨1, 1⟩).node 16 with port := b.sockets.ports .udp }
    next := Function.update (made b).sockets.next 16 none
    conns := Function.update b.sockets.conns .udp (some 16)
    ports := Function.update b.sockets.ports .udp (b.sockets.ports .udp + 1) }
  autoPorts := b.autoPorts ++ [b.sockets.ports .udp]

theorem sent_reach {b : Book} (h : calls.Reach b) (hlive : b.sockets.live 16 = false)
    (hconns : b.sockets.conns .udp = none) : calls.Reach (sent b) := by
  have h1 : calls.Reach (made b) := h.step (i := .socket .udp (some 16) true)
    ⟨fun x hx => by cases hx; exact hlive, rfl⟩
  refine h1.step (i := .udpAsyncSend 16 ⟨1, 1⟩ true) ⟨⟨?_, ?_⟩, ?_⟩
  · simp [made, Sockets.socket]
  · simp [made, Sockets.socket, Node.new]
  · simp [exec, autoBind, Sockets.autoBind, Sockets.getPort, Sockets.bind, Sockets.bindLoop, setRemote, made, sent,
      Sockets.socket, Node.new, hconns]

/-- After `k` sockets that sent and closed, the counter is `40000 + k`. -/
theorem idle_reach : ∀ k : ℕ, ∃ b : Book, calls.Reach b ∧ b.sockets.live 16 = false ∧ b.sockets.conns .udp = none ∧
    b.sockets.ports .udp = 40000 + UInt16.ofNat k
  | 0 => ⟨fresh, .start fresh_start, rfl, rfl, rfl⟩
  | k + 1 => by
    obtain ⟨b, h, hlive, hconns, hport⟩ := idle_reach k
    have hs := sent_reach h hlive hconns
    have hclose : (sent b).exec (.close 16) = some { sent b with sockets := { (sent b).sockets with
        conns := Function.update (sent b).sockets.conns .udp none
        live := Function.update (sent b).sockets.live 16 false } } := by
      simp [exec, Sockets.close, Sockets.freeSocket, socketlistRemove, sent, made, setRemote, Sockets.socket, Node.new]
    refine ⟨_, hs.step (i := .close 16) ⟨by simp [Legal, sent, made, Sockets.socket], hclose⟩, ?_, ?_, ?_⟩
    · show Function.update (sent b).sockets.live 16 false 16 = false
      exact update_self ..
    · show Function.update (sent b).sockets.conns .udp none .udp = none
      exact update_self ..
    · show Function.update b.sockets.ports .udp (b.sockets.ports .udp + 1) .udp = _
      rw [update_self, hport, UInt16.ofNat_add, add_assoc]
      rfl

/-- **After 25536 automatic binds** a socket gets port 0, and is then linked to itself. -/
theorem bound_to_itself : ∃ b : Book, calls.Reach b ∧ 0 ∈ b.autoPorts ∧ b.sockets.conns .udp = some 16 ∧
    b.sockets.next 16 = some 16 ∧ ¬ b.Lists := by
  obtain ⟨b, h, hlive, hconns, hport⟩ := idle_reach 25536
  have hport : b.sockets.ports .udp = 0 := hport
  have hs := sent_reach h hlive hconns
  have hsend : ∃ b', (sent b).exec (.udpAsyncSend 16 ⟨1, 1⟩ true) = some b' ∧ b'.autoPorts = b.autoPorts ++ [0] ++ [1] ∧
      b'.sockets.conns .udp = some 16 ∧ b'.sockets.next 16 = some 16 := by
    have hloop : ∀ s : Sockets, (s.node 16).port = 0 → s.next 16 = none →
        s.bindLoop 1 walkFuel (some 16) = some false := by
      intro s h0 hn
      have := Sockets.bindLoop_spec s 1 walkFuel (some 16) [16] ⟨rfl, hn⟩ (by decide)
      simpa [h0] using this
    simp only [exec, if_true, autoBind, Sockets.autoBind, Sockets.getPort, Sockets.bind, setRemote, sent, made,
      Sockets.socket, update_self, hport, Node.new, zero_add]
    rw [hloop _ (by simp) (by simp)]
    exact ⟨_, rfl, rfl, by simp, by simp⟩
  obtain ⟨b', h1, h2, h3, h4⟩ := hsend
  refine ⟨b', hs.step (i := .udpAsyncSend 16 ⟨1, 1⟩ true) ⟨⟨by simp [sent, made, Sockets.socket],
    by simp [sent, made, setRemote, Sockets.socket, Node.new]⟩, h1⟩, ?_, h3, h4, fun hl => hl.auto ?_⟩
  · rw [h2]; simp
  · rw [h2]; simp

end Book
end Vsf
