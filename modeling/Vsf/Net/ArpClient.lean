/-
# The ARP client

A packet whose next hop is not in the cache is parked in `arpc.requestq`;
`vsfip_netif_arp_client_thread` asks for the address up to four times, and puts the packet into
`outq` or releases it. Both queues are linked through `netif_node`. The thread is a program counter,
so that anything may happen between its calls. A buffer keeps its place as long as it is not put out
again meanwhile (`parked_conserved`).
-/
import Mathlib
import Vsf.Lib.Chain
import Vsf.Lib.System
import Vsf.Buffer.Queue
import Vsf.Net.Arp

namespace Vsf

open Linked List Function

/-! ### The queues of an interface -/

/-- A `struct vsfq_t`; its nodes are elsewhere. -/
structure Line where
  head : Option Addr
  tail : Option Addr

/-- Who puts packets out or releases them: a packet that goes at once, the client thread for a parked one
and for its request, the input of ARP frames. -/
inductive Origin
  | direct
  | parked
  | request
  | arpInput
deriving DecidableEq

/-- A buffer with its frame header, as it was put into `outq`. -/
structure Frame where
  buf : Addr
  origin : Origin
  mac : List UInt8
deriving DecidableEq

/-- `outq`, `requestq` and the `netif_node` linking both; the last three are the history. -/
structure Io where
  next : Addr → Option Addr
  requestq : Line
  outq : Line
  sent : List Frame
  drained : List Addr
  released : List (Addr × Origin)

namespace Io

variable (io : Io)

/-- A line as the queue of `buffer.c`; nothing here is ordered by `addr`. -/
def queue (l : Line) : Queue := ⟨l.head, l.tail, fun _ => 0, io.next⟩

/-- `vsfq_append(&arpc.requestq, ..)`. -/
def park (a : Addr) : Io :=
  let q := (io.queue io.requestq).append a
  { io with requestq := ⟨q.head, q.tail⟩, next := q.next }

/-- `vsfq_dequeue(&arpc.requestq)`. -/
def take : Option Addr × Io :=
  let (node, q) := (io.queue io.requestq).dequeue
  (node, { io with requestq := ⟨q.head, q.tail⟩, next := q.next })

/-- `vsfip_buffer_release`. -/
def release (a : Addr) (o : Origin) : Io := { io with released := io.released ++ [(a, o)] }

/-- `vsfip_netif_ip_output_do`; `framed` says if the header could be written. -/
def outputDo (o : Origin) (a : Addr) (mac : List UInt8) (framed : Bool) : Io :=
  if framed then
    let q := (io.queue io.outq).append a
    { io with outq := ⟨q.head, q.tail⟩, next := q.next, sent := io.sent ++ [⟨a, o, mac⟩] }
  else io.release a o

/-- The driver takes the first frame of `outq`. -/
def drain : Io :=
  let (node, q) := (io.queue io.outq).dequeue
  { io with outq := ⟨q.head, q.tail⟩, next := q.next, drained := io.drained ++ node.toList }

/-- The buffer is met by following the links from the head of a line. -/
def Queued (a : Addr) : Prop :=
  (∃ xs, Seg io.next io.requestq.head xs (some a)) ∨ ∃ xs, Seg io.next io.outq.head xs (some a)

/-- The parked packets that were put into `outq`, with their frames. -/
def moved : List (Addr × List UInt8) :=
  (io.sent.filter (·.origin = .parked)).map fun f => (f.buf, f.mac)

/-- The parked packets that were released. -/
def dropped : List Addr := (io.released.filter (·.2 = .parked)).map Prod.fst

/-- The line `l` holds `xs`. -/
structure Holds (next : Addr → Option Addr) (l : Line) (xs : List Addr) : Prop where
  chain : Chain next l.head xs
  tail : l.tail = xs.getLast?

/-- Both lines are whole: `requestq` holds `rq`, and `outq` what is not taken yet. -/
structure Lines (rq oq : List Addr) : Prop where
  requestq : Holds io.next io.requestq rq
  outq : Holds io.next io.outq oq
  disjoint : rq.Disjoint oq
  sent : io.sent.map Frame.buf = io.drained ++ oq

variable {io} {rq oq : List Addr}

variable {l : Line} {xs : List Addr}

theorem Holds.congr {next next' : Addr → Option Addr} (h : Holds next l xs)
    (hn : ∀ x ∈ xs, next' x = next x) : Holds next' l xs :=
  ⟨h.chain.congr hn, h.tail⟩

theorem mem_queued (h : Holds io.next l xs) {a : Addr} (ha : a ∈ xs) :
    ∃ ys, Seg io.next l.head ys (some a) := by
  obtain ⟨as, bs, rfl⟩ := append_of_mem ha
  obtain ⟨r, h1, rfl, -⟩ := chain_append.mp h.chain
  exact ⟨as, h1⟩

theorem Lines.not_mem (h : Lines io rq oq) {a : Addr} (ha : ¬ io.Queued a) : a ∉ rq ∧ a ∉ oq :=
  ⟨fun hm => ha (.inl (mem_queued h.requestq hm)), fun hm => ha (.inr (mem_queued h.outq hm))⟩

theorem Holds.append (h : Holds io.next l xs) {a : Addr} (ha : a ∉ xs) : let q := (io.queue l).append a
    Holds q.next ⟨q.head, q.tail⟩ (xs ++ [a]) ∧ ∀ y, y ∉ xs → y ≠ a → q.next y = io.next y := by
  have hi : Queue.Inv ⟨io.queue l, xs⟩ xs := ⟨h.chain, List.Perm.refl _, h.tail⟩
  have happ := Queue.append_inv hi ha
  refine ⟨⟨happ.chain, happ.tail⟩, fun y hy hya => ?_⟩
  rcases eq_nil_or_concat' xs with rfl | ⟨as, t, rfl⟩
  · have htail : l.tail = none := h.tail
    simp [Queue.append, htail, queue, hya]
  · have htail : l.tail = some t := h.tail.trans getLast?_concat
    have hyt : y ≠ t := fun he => hy (he ▸ mem_append_right _ mem_cons_self)
    simp [Queue.append, htail, queue, hya, hyt]

theorem Holds.dequeue (h : Holds io.next l xs) : let r := (io.queue l).dequeue
    r.1 = xs.head? ∧ r.2.next = io.next ∧ Holds io.next ⟨r.2.head, r.2.tail⟩ xs.tail := by
  have hi : Queue.Inv ⟨io.queue l, xs⟩ xs := ⟨h.chain, List.Perm.refl _, h.tail⟩
  have hdeq := Queue.dequeue_inv hi
  have hnext : (io.queue l).dequeue.2.next = io.next := by
    unfold Queue.dequeue
    split
    · rfl
    · dsimp only
      split_ifs <;> rfl
  refine ⟨?_, hnext, ⟨hnext ▸ hdeq.chain, hdeq.tail⟩⟩
  have hhead : (io.queue l).head = xs.head? := h.chain.head?
  unfold Queue.dequeue
  rw [hhead]
  cases xs <;> rfl

theorem Lines.park (h : Lines io rq oq) {a : Addr} (hr : a ∉ rq) (ho : a ∉ oq) : Lines (io.park a) (rq ++ [a]) oq := by
  obtain ⟨happ, hkeep⟩ := h.requestq.append hr
  refine ⟨happ, h.outq.congr fun y hy => hkeep y (fun hm => h.disjoint hm hy) fun he => ho (he ▸ hy), ?_, h.sent⟩
  exact disjoint_append_left.mpr ⟨h.disjoint, singleton_disjoint.mpr ho⟩

theorem Lines.outputDo (h : Lines io rq oq) {a : Addr} (hr : a ∉ rq) (ho : a ∉ oq) (o : Origin) (mac : List UInt8)
    (framed : Bool) : Lines (io.outputDo o a mac framed) rq (if framed then oq ++ [a] else oq) := by
  cases framed with
  | false => exact ⟨h.requestq, h.outq, h.disjoint, h.sent⟩
  | true =>
    obtain ⟨happ, hkeep⟩ := h.outq.append ho
    refine ⟨h.requestq.congr fun y hy => hkeep y (fun hm => h.disjoint hy hm) fun he => hr (he ▸ hy), happ, ?_, ?_⟩
    · exact disjoint_append_right.mpr ⟨h.disjoint, disjoint_singleton.mpr hr⟩
    · calc (io.sent ++ [(⟨a, o, mac⟩ : Frame)]).map Frame.buf = io.sent.map Frame.buf ++ [a] := map_append
        _ = io.drained ++ (oq ++ [a]) := by rw [h.sent, append_assoc]

theorem Lines.take (h : Lines io rq oq) : io.take.1 = rq.head? ∧ Lines io.take.2 rq.tail oq := by
  obtain ⟨hnode, hnext, htail⟩ := h.requestq.dequeue
  refine ⟨hnode, ⟨?_, ?_, fun _ hm => h.disjoint (mem_of_mem_tail hm), h.sent⟩⟩
  · exact htail.congr fun y _ => congrFun hnext y
  · exact h.outq.congr fun y _ => congrFun hnext y

theorem Lines.drain (h : Lines io rq oq) : Lines io.drain rq oq.tail := by
  obtain ⟨hnode, hnext, htail⟩ := h.outq.dequeue
  refine ⟨?_, ?_, fun _ hr hm => h.disjoint hr (mem_of_mem_tail hm), ?_⟩
  · exact h.requestq.congr fun y _ => congrFun hnext y
  · exact htail.congr fun y _ => congrFun hnext y
  · calc io.sent.map Frame.buf = io.drained ++ oq := h.sent
      _ = io.drained ++ (oq.head?.toList ++ oq.tail) := by cases oq <;> rfl
      _ = (io.drained ++ oq.head?.toList) ++ oq.tail := (append_assoc _ _ _).symm
      _ = _ := by rw [← hnode]; rfl

/-- What an output adds to the parked packets moved, and to those released. -/
theorem outputDo_books (io : Io) (o : Origin) (a : Addr) (mac : List UInt8) (framed : Bool) :
    (io.outputDo o a mac framed).moved = io.moved ++ (if o = .parked ∧ framed then [(a, mac)] else []) ∧
    (io.outputDo o a mac framed).dropped = io.dropped ++ if o = .parked ∧ ¬ framed then [a] else [] := by
  cases framed <;> cases o <;> simp [outputDo, release, moved, dropped]

theorem release_books (io : Io) (o : Origin) (a : Addr) :
    (io.release a o).moved = io.moved ∧ (io.release a o).dropped = io.dropped ++ if o = .parked then [a] else [] := by
  cases o <;> simp [release, moved, dropped]

theorem Lines.release (h : Lines io rq oq) (a : Addr) (o : Origin) : Lines (io.release a o) rq oq :=
  ⟨h.requestq, h.outq, h.disjoint, h.sent⟩

end Io

/-! ### The client -/

/-- Where the thread is: before `vsfsm_sem_pend`, in it, before `vsfq_dequeue`, at `retry`, waiting, behind
the wait. -/
inductive ArpPc
  | pend
  | waiting
  | dequeue
  | request
  | awaiting
  | check
deriving DecidableEq

/-- The configuration that decides whom a packet is sent to. -/
structure Route where
  netmask : UInt32
  netmaskSize : ℕ
  gateway : UInt32
  gatewaySize : ℕ

namespace Route

variable (r : Route)

/-- `vsfip_netif_islocal`. -/
def islocal (ip : UInt32) : Bool :=
  ip = 0xffffffff ∨ ∀ i < r.netmaskSize, (Arp.addrBytes ip).getD i 0 &&& (Arp.addrBytes r.netmask).getD i 0 =
    (Arp.addrBytes r.gateway).getD i 0 &&& (Arp.addrBytes r.netmask).getD i 0

/-- The address whose MAC a packet needs. -/
def nextHop (ip : UInt32) : UInt32 := if r.islocal ip ∨ r.gatewaySize = 0 then ip else r.gateway

end Route

/-- A packet done with: where it goes, the requests sent, the interface, and the address it went to, if it
did. -/
structure ArpDone where
  buf : Addr
  dest : UInt32
  asked : ℕ
  netif : Arp.Netif
  mac : Option (List UInt8)

/-- An interface with its ARP client: `dest` is each buffer's `ipdest` (IPv4), `cur` the `cur_request`,
`asked` its requests; `parked` and `done` keep the packets. -/
structure ArpClient where
  netif : Arp.Netif
  route : Route
  dest : Addr → UInt32
  io : Io
  sem : ℕ
  pc : ArpPc
  cur : Addr
  ipForMac : UInt32
  retry : ℕ
  smPending : Bool
  armed : Bool
  asked : ℕ
  parked : List (Addr × UInt32)
  done : List ArpDone

/-- What the thread's calls return: a buffer, and if both headers could be written. -/
structure ArpResults where
  buf : Option Addr
  requestFramed : Bool
  packetFramed : Bool

namespace ArpClient

variable (c : ArpClient)

/-- `vsfsm_sem_post` of `arpc.sem`: a waiting thread gets the token. -/
def semPost : ArpClient := if c.pc = .waiting then { c with pc := .dequeue } else { c with sem := c.sem + 1 }

/-- `vsfip_netif_ip_output` of the packet in `a`, to `ip`, `size` long. -/
def ipOutput (a : Addr) (ip size : UInt32) (framed : Bool) : ArpClient :=
  let c := { c with dest := Function.update c.dest a ip }
  match c.netif.getMac (c.route.nextHop ip) with
  | none => { c with io := c.io.park a, parked := c.parked ++ [(a, ip)] }.semPost
  | some mac => if size ≠ 0 then { c with io := c.io.outputDo .direct a mac framed } else c

/-- The thread is resumed with `UPDATE` or `TIMEOUT`. -/
def wake : ArpClient := if c.pc = .awaiting then { c with pc := .check, armed := false, smPending := false } else c

/-- `vsfip_netif_arp_input` of the frame `b` in the buffer `a`. -/
def arpInput (a : Addr) (b : RxBuf) (framed : Bool) : ArpClient :=
  match (c.netif.arpInput b).act with
  | .release => { c with io := c.io.release a .arpInput }
  | .reply mac _ => { c with io := c.io.outputDo .arpInput a mac framed }
  | .learn mac ip =>
    let c := { c with netif := c.netif.addAssoc mac ip }
    let c := if c.smPending then c.wake else c
    { c with io := c.io.release a .arpInput }

/-- `arpc.to` runs out. -/
def timeout : ArpClient := { c with armed := false }.wake

/-- The end of the loop: the packet at work goes out to `mac`, or is released. -/
def finish (mac : Option (List UInt8)) (framed : Bool) : ArpClient :=
  { c with
    io := match mac with
      | none => c.io.release c.cur .parked
      | some mac => c.io.outputDo .parked c.cur mac framed
    pc := .pend
    done := c.done ++ [⟨c.cur, c.dest c.cur, c.asked, c.netif, if framed then mac else none⟩] }

/-- `vsfip_netif_arp_client_thread`, up to the next call; waiting does nothing. -/
def thread (r : ArpResults) : ArpClient :=
  match c.pc with
  | .pend => if c.sem > 0 then { c with sem := c.sem - 1, pc := .dequeue } else { c with pc := .waiting }
  | .waiting => c
  | .dequeue =>
    match c.io.take with
    | (none, io) => { c with io, pc := .pend }
    | (some a, io) =>
      let c := { c with io, cur := a, ipForMac := c.route.nextHop (c.dest a), asked := 0 }
      match c.netif.getMac c.ipForMac with
      | none => { c with retry := 3, pc := .request }
      | some mac => c.finish (some mac) r.packetFramed
  | .request =>
    match r.buf with
    | none => c.finish none r.packetFramed
    | some b =>
      let c := { c with io := c.io.outputDo .request b c.netif.macBroadcast r.requestFramed }
      if r.requestFramed then { c with asked := c.asked + 1, smPending := true, armed := true, pc := .awaiting }
      else { c with pc := .check }
  | .awaiting => c
  | .check =>
    match c.netif.getMac c.ipForMac with
    | none => if c.retry > 0 then { c with retry := c.retry - 1, pc := .request } else c.finish none r.packetFramed
    | some mac => c.finish (some mac) r.packetFramed

/-- The thread is at a packet. -/
def Working : Prop := c.pc = .request ∨ c.pc = .awaiting ∨ c.pc = .check

instance : Decidable c.Working := inferInstanceAs (Decidable (_ ∨ _ ∨ _))

/-- The buffer `a` is in a line or at work. -/
def Busy (a : Addr) : Prop := c.io.Queued a ∨ c.Working ∧ c.cur = a

end ArpClient

/-- A packet put out, an ARP frame, the timer, a step of the thread, the driver. -/
inductive ArpEv
  | output (a : Addr) (ip size : UInt32) (framed : Bool)
  | input (a : Addr) (b : RxBuf) (framed : Bool)
  | timeout
  | thread (r : ArpResults)
  | drain

namespace ArpEv

/-- A packet is put out. -/
def outputs : ArpEv → Bool
  | .output .. => true
  | _ => false

/-- A step of the thread, or its timeout. -/
def own : ArpEv → Bool
  | .timeout => true
  | .thread _ => true
  | _ => false

end ArpEv

namespace ArpClient

variable (c : ArpClient)

/-- Packets are not empty, new buffers are nowhere else, an armed timer runs out, a waiting thread rests. -/
def Legal : ArpEv → Prop
  | .output _ _ size _ => size ≠ 0
  | .input a _ _ => ¬ c.Busy a
  | .timeout => c.armed = true
  | .thread r => c.pc ≠ .waiting ∧ c.pc ≠ .awaiting ∧ ∀ b, r.buf = some b → ¬ c.Busy b
  | .drain => True

def next : ArpEv → ArpClient
  | .output a ip size framed => c.ipOutput a ip size framed
  | .input a b framed => c.arpInput a b framed
  | .timeout => c.timeout
  | .thread r => c.thread r
  | .drain => { c with io := c.io.drain }

/-- After `vsfip_netif_construct`: nothing is queued, and the thread runs. -/
structure Start : Prop where
  requestq : c.io.requestq = ⟨none, none⟩
  outq : c.io.outq = ⟨none, none⟩
  sem : c.sem = 0
  pc : c.pc = .pend
  armed : c.armed = false
  sent : c.io.sent = []
  drained : c.io.drained = []
  released : c.io.released = []
  parked : c.parked = []
  done : c.done = []
  asked : c.asked = 0

/-- An interface in use, in any order of the events. -/
def system : System ArpClient ArpEv where
  start := Start
  step c e c' := c.Legal e ∧ c' = c.next e

/-- A packet that is put out is in no line and not at work. -/
def fresh : ArpEv → Prop
  | .output a _ _ _ => ¬ c.Busy a
  | _ => True

/-- The packet the thread is at. -/
def atWork : List Addr := if c.Working then [c.cur] else []

/-- The steps the thread has left when nothing more is parked. -/
def work : ℕ :=
  15 * c.sem + match c.pc with
    | .pend => 1
    | .waiting => 0
    | .dequeue => 14
    | .request => 3 * c.retry + 4
    | .awaiting => 3 * c.retry + 3
    | .check => 3 * c.retry + 2

/-- The packets parked are, in order, those done with, those in `w`, and those in `rq`. -/
structure Books (route : Route) (io : Io) (dest : Addr → UInt32) (parked : List (Addr × UInt32)) (done : List ArpDone)
    (asked : ℕ) (w rq oq : List Addr) : Prop where
  lines : io.Lines rq oq
  apart : ∀ a ∈ w, a ∉ rq ∧ a ∉ oq
  parked : parked = done.map (fun d => (d.buf, d.dest)) ++ (w ++ rq).map fun a => (a, dest a)
  moved : io.moved = done.filterMap fun d => d.mac.map fun mac => (d.buf, mac)
  dropped : io.dropped = (done.filter (·.mac.isNone)).map ArpDone.buf
  mac : ∀ d ∈ done, ∀ mac, d.mac = some mac → d.netif.getMac (route.nextHop d.dest) = some mac
  asked : asked ≤ 4 ∧ ∀ d ∈ done, d.asked ≤ 4

/-- **The books of the client**: the parked packets are, in order, those done with, the one at work, and
those in `requestq`; each done went out once, to the cached address, or was released once, after at most
four requests. -/
def Conserved : Prop :=
  ∃ rq oq, Books c.route c.io c.dest c.parked c.done c.asked c.atWork rq oq ∧ (c.pc = .waiting → rq = [])

/-! ### What the steps keep -/

namespace Books

variable {route : Route} {io : Io} {dest : Addr → UInt32} {parked : List (Addr × UInt32)} {done : List ArpDone}
  {asked : ℕ} {w rq oq : List Addr} {a : Addr}

theorem outputDo (h : Books route io dest parked done asked w rq oq) {o : Origin} (hw : a ∉ w) (hr : a ∉ rq)
    (ho : a ∉ oq) (hne : o ≠ .parked) (mac : List UInt8) (framed : Bool) :
    ∃ oq', Books route (io.outputDo o a mac framed) dest parked done asked w rq oq' := by
  obtain ⟨hmoved, hdropped⟩ := Io.outputDo_books io o a mac framed
  simp only [hne, false_and, if_false, append_nil] at hmoved hdropped
  refine ⟨_, h.lines.outputDo hr ho o mac framed, fun x hx => ⟨(h.apart x hx).1, ?_⟩, h.parked, hmoved.trans h.moved,
    hdropped.trans h.dropped, h.mac, h.asked⟩
  split_ifs
  · rw [mem_append, mem_singleton]
    rintro (hm | rfl)
    · exact (h.apart x hx).2 hm
    · exact hw hx
  · exact (h.apart x hx).2

theorem release (h : Books route io dest parked done asked w rq oq) {o : Origin} (hne : o ≠ .parked) :
    Books route (io.release a o) dest parked done asked w rq oq := by
  obtain ⟨hmoved, hdropped⟩ := Io.release_books io o a
  rw [if_neg hne, append_nil] at hdropped
  exact ⟨h.lines.release a o, h.apart, h.parked, hmoved.trans h.moved, hdropped.trans h.dropped, h.mac, h.asked⟩

theorem drain (h : Books route io dest parked done asked w rq oq) :
    Books route io.drain dest parked done asked w rq oq.tail :=
  ⟨h.lines.drain, fun x hx => ⟨(h.apart x hx).1, fun hm => (h.apart x hx).2 (mem_of_mem_tail hm)⟩, h.parked, h.moved,
    h.dropped, h.mac, h.asked⟩

theorem setDest (h : Books route io dest parked done asked w rq oq) (hw : a ∉ w) (hr : a ∉ rq) (ip : UInt32) :
    Books route io (Function.update dest a ip) parked done asked w rq oq := by
  have hmap : ((w ++ rq).map fun x => (x, Function.update dest a ip x)) = (w ++ rq).map fun x => (x, dest x) := by
    refine map_congr_left fun x hx => ?_
    have hxa : x ≠ a := fun he => (mem_append.mp hx).elim (he ▸ hw) (he ▸ hr)
    rw [update_of_ne hxa]
  exact ⟨h.lines, h.apart, hmap ▸ h.parked, h.moved, h.dropped, h.mac, h.asked⟩

theorem park (h : Books route io dest parked done asked w rq oq) (hw : a ∉ w) (hr : a ∉ rq) (ho : a ∉ oq) :
    Books route (io.park a) dest (parked ++ [(a, dest a)]) done asked w (rq ++ [a]) oq := by
  refine ⟨h.lines.park hr ho, fun x hx => ⟨?_, (h.apart x hx).2⟩, ?_, h.moved, h.dropped, h.mac, h.asked⟩
  · rw [mem_append, mem_singleton]
    rintro (hm | rfl)
    · exact (h.apart x hx).1 hm
    · exact hw hx
  · rw [h.parked, append_assoc, ← append_assoc w rq [a], @map_append _ _ _ _ [a]]
    rfl

theorem take (h : Books route io dest parked done asked [] (a :: rq) oq) :
    Books route io.take.2 dest parked done 0 [a] rq oq := by
  have hnd := h.lines.requestq.chain.nodup
  refine ⟨h.lines.take.2, fun x hx => ?_, h.parked, h.moved, h.dropped, h.mac, Nat.zero_le _, h.asked.2⟩
  obtain rfl := mem_singleton.mp hx
  exact ⟨(nodup_cons.mp hnd).1, h.lines.disjoint mem_cons_self⟩

/-- The packet at work goes out to the address the cache has, or is released. -/
theorem finish (h : Books route io dest parked done asked [a] rq oq) {netif : Arp.Netif} {mac : Option (List UInt8)}
    (hmac : ∀ m, mac = some m → netif.getMac (route.nextHop (dest a)) = some m) (framed : Bool) :
    ∃ oq', Books route (match mac with
      | none => io.release a .parked
      | some mac => io.outputDo .parked a mac framed) dest parked
      (done ++ [⟨a, dest a, asked, netif, if framed then mac else none⟩]) asked [] rq oq' := by
  obtain ⟨hr, ho⟩ := h.apart a mem_cons_self
  have hparked : parked = (done ++ [(⟨a, dest a, asked, netif, if framed then mac else none⟩ : ArpDone)]).map
      (fun d => (d.buf, d.dest)) ++ ([] ++ rq).map fun a => (a, dest a) := by
    rw [h.parked, map_append, map_append, append_assoc]
    rfl
  have hdone : ∀ d ∈ done ++ [(⟨a, dest a, asked, netif, if framed then mac else none⟩ : ArpDone)], ∀ m, d.mac = some m →
      d.netif.getMac (route.nextHop d.dest) = some m := by
    intro d hd m hm
    rcases mem_append.mp hd with hd | hd
    · exact h.mac d hd m hm
    · obtain rfl := mem_singleton.mp hd
      cases framed with
      | false => cases hm
      | true => exact hmac m hm
  have hasked : asked ≤ 4 ∧ ∀ d ∈ done ++ [(⟨a, dest a, asked, netif, if framed then mac else none⟩ : ArpDone)], d.asked ≤ 4 := by
    refine ⟨h.asked.1, fun d hd => ?_⟩
    rcases mem_append.mp hd with hd | hd
    · exact h.asked.2 d hd
    · obtain rfl := mem_singleton.mp hd
      exact h.asked.1
  cases mac with
  | none =>
    obtain ⟨hmoved, hdropped⟩ := Io.release_books io .parked a
    refine ⟨oq, h.lines.release a .parked, by simp, hparked, ?_, ?_, hdone, hasked⟩
    · rw [hmoved, h.moved]
      simp
    · rw [hdropped, h.dropped]
      simp
  | some mac =>
    obtain ⟨hmoved, hdropped⟩ := Io.outputDo_books io .parked a mac framed
    refine ⟨_, h.lines.outputDo hr ho .parked mac framed, by simp, hparked, ?_, ?_, hdone, hasked⟩
    · rw [hmoved, h.moved]
      cases framed <;> simp
    · rw [hdropped, h.dropped]
      cases framed <;> simp

end Books

/-- What holds between the steps. -/
structure Inv (rq oq : List Addr) : Prop where
  books : Books c.route c.io c.dest c.parked c.done c.asked c.atWork rq oq
  hop : c.Working → c.ipForMac = c.route.nextHop (c.dest c.cur)
  count : rq.length = c.sem + if c.pc = .dequeue then 1 else 0
  idle : c.pc = .waiting → c.sem = 0
  armed : c.armed = true ↔ c.pc = .awaiting
  request : c.pc = .request → c.asked + c.retry ≤ 3
  answer : c.pc = .awaiting ∨ c.pc = .check → c.asked + c.retry ≤ 4

variable {c} {rq oq : List Addr}

theorem Inv.conserved (h : c.Inv rq oq) : c.Conserved := by
  refine ⟨rq, oq, h.books, fun hw => ?_⟩
  have hcount := h.count
  rw [h.idle hw, hw] at hcount
  exact eq_nil_of_length_eq_zero hcount

theorem Start.inv (h : Start c) : c.Inv [] [] := by
  have hwork : c.atWork = [] := by simp [atWork, Working, h.pc]
  refine ⟨⟨⟨?_, ?_, disjoint_nil_left _, ?_⟩, ?_, ?_, ?_, ?_, ?_, ?_⟩, ?_, ?_, ?_, ?_, ?_, ?_⟩
  · rw [h.requestq]; exact ⟨rfl, rfl⟩
  · rw [h.outq]; exact ⟨rfl, rfl⟩
  · rw [h.sent, h.drained]; rfl
  · simp
  · rw [h.parked, h.done, hwork]; rfl
  · simp [Io.moved, h.sent, h.done]
  · simp [Io.dropped, h.released, h.done]
  · simp [h.done]
  · simp [h.done, h.asked]
  · simp [Working, h.pc]
  · simp [h.pc, h.sem]
  all_goals simp [h.pc, h.armed]

theorem Inv.apart (h : c.Inv rq oq) {a : Addr} (ha : ¬ c.Busy a) : a ∉ c.atWork ∧ a ∉ rq ∧ a ∉ oq := by
  have hq := h.books.lines.not_mem fun hq => ha (.inl hq)
  refine ⟨fun hm => ?_, hq⟩
  unfold atWork at hm
  split_ifs at hm with hw
  · exact ha (.inr ⟨hw, (mem_singleton.mp hm).symm⟩)
  · cases hm

theorem Inv.quiet (h : c.Inv rq oq) (hpc : c.pc ≠ .awaiting) : c.armed = false :=
  Bool.eq_false_iff.mpr fun ha => hpc (h.armed.mp ha)

theorem Inv.wake (h : c.Inv rq oq) : c.wake.Inv rq oq := by
  unfold ArpClient.wake
  split_ifs with hpc
  · have hw : c.Working := .inr (.inl hpc)
    have hwork : c.atWork = [c.cur] := if_pos hw
    have hcount := h.count
    rw [hpc] at hcount
    have hbooks := h.books
    rw [hwork] at hbooks
    exact ⟨hbooks, fun _ => h.hop hw, hcount, nofun, ⟨nofun, nofun⟩, nofun, fun _ => h.answer (.inl hpc)⟩
  · exact h

theorem Inv.timeout (h : c.Inv rq oq) : c.timeout.Inv rq oq := by
  unfold ArpClient.timeout
  by_cases hpc : c.pc = .awaiting
  · have := h.wake
    unfold ArpClient.wake at this ⊢
    rw [if_pos hpc] at this
    rw [if_pos (show ({ c with armed := false } : ArpClient).pc = .awaiting from hpc)]
    exact this
  · unfold ArpClient.wake
    rw [if_neg (show ¬ ({ c with armed := false } : ArpClient).pc = .awaiting from hpc)]
    exact ⟨h.books, h.hop, h.count, h.idle, ⟨nofun, fun h => absurd h hpc⟩, h.request, h.answer⟩

theorem Inv.setIo (h : c.Inv rq oq) {io : Io} {oq' : List Addr}
    (hb : Books c.route io c.dest c.parked c.done c.asked c.atWork rq oq') : ({ c with io } : ArpClient).Inv rq oq' :=
  ⟨hb, h.hop, h.count, h.idle, h.armed, h.request, h.answer⟩

theorem Inv.arpInput (h : c.Inv rq oq) {a : Addr} (ha : ¬ c.Busy a) (b : RxBuf) (framed : Bool) :
    ∃ oq', (c.arpInput a b framed).Inv rq oq' := by
  obtain ⟨hw, hr, ho⟩ := h.apart ha
  unfold ArpClient.arpInput
  cases (c.netif.arpInput b).act with
  | release => exact ⟨oq, h.setIo (h.books.release (by decide))⟩
  | reply mac _ =>
    obtain ⟨oq', hb⟩ := h.books.outputDo hw hr ho (o := .arpInput) (by decide) mac framed
    exact ⟨oq', h.setIo hb⟩
  | learn mac ip =>
    have hl : ({ c with netif := c.netif.addAssoc mac ip } : ArpClient).Inv rq oq :=
      ⟨h.books, h.hop, h.count, h.idle, h.armed, h.request, h.answer⟩
    dsimp only
    split_ifs
    · exact ⟨oq, hl.wake.setIo (hl.wake.books.release (by decide))⟩
    · exact ⟨oq, hl.setIo (hl.books.release (by decide))⟩

theorem Inv.finish (mac : Option (List UInt8))
    (hb : Books c.route c.io c.dest c.parked c.done c.asked [c.cur] rq oq) (hcount : rq.length = c.sem)
    (harmed : c.armed = false)
    (hmac : ∀ m, mac = some m → c.netif.getMac (c.route.nextHop (c.dest c.cur)) = some m) (framed : Bool) :
    ∃ oq', (c.finish mac framed).Inv rq oq' := by
  obtain ⟨oq', hb⟩ := hb.finish hmac framed
  exact ⟨oq', hb, nofun, hcount, nofun, ⟨fun h => absurd (harmed.symm.trans h) nofun, nofun⟩, nofun, nofun⟩

theorem Inv.semPost (hb : Books c.route c.io c.dest c.parked c.done c.asked c.atWork rq oq)
    (hop : c.Working → c.ipForMac = c.route.nextHop (c.dest c.cur))
    (hcount : rq.length = c.sem + (if c.pc = .dequeue then 1 else 0) + 1) (harmed : c.armed = true ↔ c.pc = .awaiting)
    (hrequest : c.pc = .request → c.asked + c.retry ≤ 3)
    (hanswer : c.pc = .awaiting ∨ c.pc = .check → c.asked + c.retry ≤ 4) : c.semPost.Inv rq oq := by
  unfold ArpClient.semPost
  split_ifs with hpc
  · have hwork : c.atWork = [] := by simp [atWork, Working, hpc]
    rw [hwork] at hb
    rw [hpc, if_neg (by decide)] at hcount
    rw [hpc] at harmed
    exact ⟨hb, nofun, hcount, nofun, harmed.trans ⟨nofun, nofun⟩, nofun, nofun⟩
  · exact ⟨hb, hop, by rw [hcount, add_right_comm], fun h => absurd h hpc, harmed, hrequest, hanswer⟩

theorem Inv.ipOutput (h : c.Inv rq oq) {a : Addr} (ha : ¬ c.Busy a) (ip size : UInt32) (framed : Bool) :
    ∃ rq' oq', (c.ipOutput a ip size framed).Inv rq' oq' := by
  obtain ⟨hw, hr, ho⟩ := h.apart ha
  have hdest : Function.update c.dest a ip a = ip := update_self _ _ _
  have hcur : c.Working → Function.update c.dest a ip c.cur = c.dest c.cur := fun hwork =>
    update_of_ne (fun he => ha (.inr ⟨hwork, he⟩)) _ _
  have hset : ({ c with dest := Function.update c.dest a ip } : ArpClient).Inv rq oq :=
    ⟨h.books.setDest hw hr ip, fun hwork => (h.hop hwork).trans (congrArg _ (hcur hwork).symm), h.count, h.idle, h.armed,
      h.request, h.answer⟩
  unfold ArpClient.ipOutput
  dsimp only
  cases c.netif.getMac (c.route.nextHop ip) with
  | none =>
    have hpark := hset.books.park hw hr ho
    dsimp only at hpark
    rw [hdest] at hpark
    have hcount := h.count
    refine ⟨rq ++ [a], oq, Inv.semPost hpark hset.hop ?_ h.armed h.request h.answer⟩
    rw [length_append, hcount]
    rfl
  | some mac =>
    split_ifs
    · obtain ⟨oq', hb⟩ := hset.books.outputDo hw hr ho (o := .direct) (by decide) mac framed
      exact ⟨rq, oq', hset.setIo hb⟩
    · exact ⟨rq, oq, hset⟩

/-- One step of the thread, a case for each place it can be at. -/
theorem Inv.thread (h : c.Inv rq oq) {r : ArpResults} (hr : ∀ b, r.buf = some b → ¬ c.Busy b) :
    ∃ rq' oq', (c.thread r).Inv rq' oq' := by
  have hcount := h.count
  have hbooks := h.books
  have hquiet := h.quiet
  unfold ArpClient.thread
  have hoff : ∀ pc : ArpPc, c.pc ≠ .awaiting → pc ≠ .awaiting → (c.armed = true ↔ pc = .awaiting) := fun pc hne hpc => by
    rw [hquiet hne]
    exact ⟨nofun, fun h => absurd h hpc⟩
  cases hpc : c.pc with
  | waiting => exact ⟨rq, oq, h⟩
  | awaiting => exact ⟨rq, oq, h⟩
  | pend =>
    have hwork : c.atWork = [] := by simp [atWork, Working, hpc]
    rw [hwork] at hbooks
    rw [hpc, if_neg (by decide)] at hcount
    dsimp only
    split_ifs with hsem
    · refine ⟨rq, oq, hbooks, nofun, ?_, nofun, hoff _ (hpc ▸ nofun) nofun, nofun, nofun⟩
      rw [hcount, if_pos rfl]
      dsimp only
      omega
    · refine ⟨rq, oq, hbooks, nofun, hcount, fun _ => ?_, hoff _ (hpc ▸ nofun) nofun, nofun, nofun⟩
      exact Nat.eq_zero_of_not_pos hsem
  | dequeue =>
    have hwork : c.atWork = [] := by simp [atWork, Working, hpc]
    rw [hwork] at hbooks
    rw [hpc, if_pos rfl] at hcount
    obtain ⟨a, rq, rfl⟩ := exists_cons_of_length_eq_add_one hcount
    obtain ⟨hnode, -⟩ := hbooks.lines.take
    have htake := hbooks.take
    rcases htk : c.io.take with ⟨node, io⟩
    rw [htk] at hnode htake
    obtain rfl : node = some a := hnode
    have hlen : rq.length = c.sem := by
      rw [length_cons] at hcount
      omega
    dsimp only
    cases hmac : c.netif.getMac (c.route.nextHop (c.dest a)) with
    | none => exact ⟨rq, oq, htake, fun _ => rfl, hlen, nofun, hoff _ (hpc ▸ nofun) nofun, fun _ => le_refl 3, nofun⟩
    | some mac =>
      obtain ⟨oq', hfin⟩ := Inv.finish (c := { c with io, cur := a, ipForMac := c.route.nextHop (c.dest a), asked := 0 })
        (some mac) htake hlen (hquiet (hpc ▸ nofun)) (fun m hm => hm ▸ hmac) r.packetFramed
      exact ⟨rq, oq', hfin⟩
  | request =>
    have hw : c.Working := .inl hpc
    rw [show c.atWork = [c.cur] from if_pos hw] at hbooks
    rw [hpc, if_neg (by decide)] at hcount
    have htry := h.request hpc
    cases hbuf : r.buf with
    | none =>
      obtain ⟨oq', hfin⟩ := Inv.finish none hbooks hcount (hquiet (hpc ▸ nofun)) nofun r.packetFramed
      exact ⟨rq, oq', hfin⟩
    | some b =>
      obtain ⟨hbw, hbr, hbo⟩ := h.apart (hr b hbuf)
      rw [show c.atWork = [c.cur] from if_pos hw] at hbw
      obtain ⟨oq', hb⟩ := hbooks.outputDo hbw hbr hbo (o := .request) (by decide) c.netif.macBroadcast r.requestFramed
      dsimp only
      split_ifs
      · refine ⟨rq, oq', ⟨hb.lines, hb.apart, hb.parked, hb.moved, hb.dropped, hb.mac, ?_, hb.asked.2⟩, fun _ => h.hop hw,
          hcount, nofun, ⟨fun _ => rfl, fun _ => rfl⟩, nofun, fun _ => ?_⟩
        · dsimp only
          omega
        · dsimp only
          omega
      · exact ⟨rq, oq', hb, fun _ => h.hop hw, hcount, nofun, hoff _ (hpc ▸ nofun) nofun, nofun, fun _ => by dsimp only; omega⟩
  | check =>
    have hw : c.Working := .inr (.inr hpc)
    rw [show c.atWork = [c.cur] from if_pos hw] at hbooks
    rw [hpc, if_neg (by decide)] at hcount
    have htry := h.answer (.inr hpc)
    cases hmac : c.netif.getMac c.ipForMac with
    | none =>
      dsimp only
      split_ifs with hretry
      · exact ⟨rq, oq, hbooks, fun _ => h.hop hw, hcount, nofun, hoff _ (hpc ▸ nofun) nofun, fun _ => by dsimp only; omega, nofun⟩
      · obtain ⟨oq', hfin⟩ := Inv.finish none hbooks hcount (hquiet (hpc ▸ nofun)) nofun r.packetFramed
        exact ⟨rq, oq', hfin⟩
    | some mac =>
      rw [h.hop hw] at hmac
      obtain ⟨oq', hfin⟩ := Inv.finish (some mac) hbooks hcount (hquiet (hpc ▸ nofun)) (fun m hm => hm ▸ hmac) r.packetFramed
      exact ⟨rq, oq', hfin⟩

/-- **One step**, with packets that are nowhere else. -/
theorem Inv.next (h : c.Inv rq oq) {e : ArpEv} (hl : c.Legal e) (hf : c.fresh e) : ∃ rq' oq', (c.next e).Inv rq' oq' := by
  cases e with
  | output a ip size framed => exact h.ipOutput hf ip size framed
  | input a b framed => exact ⟨rq, h.arpInput hl b framed⟩
  | timeout => exact ⟨rq, oq, h.timeout⟩
  | thread r => exact h.thread hl.2.2
  | drain => exact ⟨rq, oq.tail, h.setIo h.books.drain⟩

theorem reach_inv (h : (system.restrict fresh).Reach c) : ∃ rq oq, c.Inv rq oq := by
  refine h.invariant (P := fun c => ∃ rq oq, c.Inv rq oq) (fun _ hs => ⟨[], [], hs.inv⟩) fun c e c' _ ih hs => ?_
  obtain ⟨rq, oq, hi⟩ := ih
  obtain ⟨hf, hl, rfl⟩ := hs
  exact hi.next hl hf

/-! ### The thread comes back to its wait -/

theorem wake_work (c : ArpClient) : c.wake.work ≤ c.work ∧ (c.pc = .awaiting → c.wake.work < c.work) := by
  unfold ArpClient.wake
  split_ifs with hpc
  · simp only [work, hpc]
    omega
  · exact ⟨le_refl _, fun h => absurd h hpc⟩

theorem thread_work (c : ArpClient) (r : ArpResults) (hw : c.pc ≠ .waiting) (ha : c.pc ≠ .awaiting) :
    (c.thread r).work < c.work := by
  unfold ArpClient.thread
  cases hpc : c.pc with
  | waiting => exact absurd hpc hw
  | awaiting => exact absurd hpc ha
  | pend =>
    split_ifs
    all_goals
      simp only [work, hpc]
      omega
  | dequeue =>
    rcases c.io.take with ⟨_ | a, io⟩
    · simp only [work, hpc]
      omega
    · dsimp only
      cases c.netif.getMac (c.route.nextHop (c.dest a))
      all_goals
        simp only [work, finish, hpc]
        omega
  | request =>
    cases r.buf
    · simp only [work, finish, hpc]
      omega
    · dsimp only
      split_ifs
      all_goals
        simp only [work, hpc]
        omega
  | check =>
    cases c.netif.getMac c.ipForMac
    · dsimp only
      split_ifs
      all_goals
        simp only [work, finish, hpc]
        omega
    · simp only [work, finish, hpc]
      omega

theorem ipOutput_work (c : ArpClient) (a : Addr) (ip size : UInt32) (framed : Bool) :
    (c.ipOutput a ip size framed).work ≤ c.work + 15 := by
  unfold ArpClient.ipOutput
  dsimp only
  cases c.netif.getMac (c.route.nextHop ip) with
  | none =>
    dsimp only [ArpClient.semPost]
    split_ifs with hpc
    · simp only [work, hpc]
      omega
    · simp only [work]
      omega
  | some mac =>
    split_ifs
    all_goals
      simp only [work]
      omega

theorem arpInput_work (c : ArpClient) (a : Addr) (b : RxBuf) (framed : Bool) : (c.arpInput a b framed).work ≤ c.work := by
  unfold ArpClient.arpInput
  cases (c.netif.arpInput b).act with
  | release => exact le_refl _
  | reply mac _ => exact le_refl _
  | learn mac ip =>
    dsimp only
    split_ifs
    · exact (wake_work { c with netif := c.netif.addAssoc mac ip }).1
    · exact le_refl _

theorem Inv.work (h : c.Inv rq oq) {e : ArpEv} (hl : c.Legal e) :
    (c.next e).work + (if e.own then 1 else 0) ≤ c.work + if e.outputs then 15 else 0 := by
  cases e with
  | output a ip size framed => exact ipOutput_work c a ip size framed
  | input a b framed => exact arpInput_work c a b framed
  | timeout => exact (wake_work { c with armed := false }).2 (h.armed.mp hl)
  | thread r => exact thread_work c r hl.1 hl.2.1
  | drain => exact le_refl _

/-- **The steps of the thread in a run**: those it had left, and 15 a packet. -/
theorem run_work {is : List ArpEv} {c' : ArpClient} (hr : (system.restrict fresh).Reach c)
    (h : (system.restrict fresh).Run c is c') :
    c'.work + is.countP ArpEv.own ≤ c.work + 15 * is.countP ArpEv.outputs := by
  induction h with
  | nil c => exact le_refl _
  | @cons c c1 c2 e is hs _ ih =>
    obtain ⟨rq, oq, hi⟩ := reach_inv hr
    have hrest := ih (hr.step hs)
    have hstep := hi.work hs.2.1
    rw [← hs.2.2] at hstep
    rw [countP_cons, countP_cons]
    split_ifs at hstep ⊢ <;> omega

/-- A thread that is not in its wait can go on, if need be by its timeout. -/
theorem Inv.goes_on (h : c.Inv rq oq) (hpc : c.pc ≠ .waiting) :
    ∃ e c', e.own = true ∧ (system.restrict fresh).step c e c' := by
  by_cases hw : c.pc = .awaiting
  · exact ⟨.timeout, _, rfl, trivial, h.armed.mpr hw, rfl⟩
  · exact ⟨.thread ⟨none, false, false⟩, _, rfl, trivial, ⟨hpc, hw, nofun⟩, rfl⟩

/-- **The ARP client keeps its books**, as long as no packet is put out while in a line or at work; its
thread can go on until it waits, and gets there. -/
theorem parked_conserved (h : (system.restrict fresh).Reach c) : c.Conserved ∧
    (c.pc ≠ .waiting → ∃ e c', e.own = true ∧ (system.restrict fresh).step c e c') ∧
    ∀ is c', (system.restrict fresh).Run c is c' →
      c'.work + is.countP ArpEv.own ≤ c.work + 15 * is.countP ArpEv.outputs := by
  obtain ⟨rq, oq, hi⟩ := reach_inv h
  exact ⟨hi.conserved, hi.goes_on, fun is c' => run_work h⟩

/-! ### Runs -/

/-- An interface that knows no address. -/
def quiet : ArpClient where
  netif := Arp.Traffic.quiet.netif
  route := ⟨0x00ffffff, 4, 0, 0⟩
  dest := fun _ => 0
  io := ⟨fun _ => none, ⟨none, none⟩, ⟨none, none⟩, [], [], []⟩
  sem := 0
  pc := .pend
  cur := 0
  ipForMac := 0
  retry := 0
  smPending := false
  armed := false
  asked := 0
  parked := []
  done := []

theorem quiet_start : Start quiet := ⟨rfl, rfl, rfl, rfl, rfl, rfl, rfl, rfl, rfl, rfl, rfl⟩

/-- The thread takes a step, and no buffer is free for a request. -/
def starved : ArpEv := .thread ⟨none, false, false⟩

/-- A packet to 192.168.0.2. -/
def packet (a : Addr) : ArpEv := .output a 0x0200a8c0 40 true

theorem not_busy {a : Addr} (hr : c.io.requestq.head = none) (ho : c.io.outq.head = none) (hcur : c.Working → c.cur ≠ a) : ¬ c.Busy a := by
  have hnone : ∀ xs, ¬ Seg c.io.next none xs (some a)
    | [], h => nomatch h
    | _ :: _, h => nomatch h.1
  rintro ((⟨xs, hs⟩ | ⟨xs, hs⟩) | ⟨hw, rfl⟩)
  · exact hnone xs (hr ▸ hs)
  · exact hnone xs (ho ▸ hs)
  · exact hcur hw rfl

/-- The packet waits for the thread, which asks for the address, and goes out after the reply. -/
theorem parked_conserved_packet : ∃ c : ArpClient, c.parked = [(0x100, 0x0200a8c0)] ∧ c.io.moved = [(0x100, [2, 0, 0, 0, 0, 7])] ∧
    c.Conserved := by
  have h1 : (system.restrict fresh).Reach (quiet.next starved) :=
    (System.Reach.start quiet_start).step (i := starved) ⟨trivial, ⟨by decide, by decide, nofun⟩, rfl⟩
  have h2 := h1.step (i := packet 0x100) ⟨not_busy rfl rfl (by decide), (by decide : (40 : UInt32) ≠ 0), rfl⟩
  have h3 := h2.step (i := starved) ⟨trivial, ⟨by decide, by decide, nofun⟩, rfl⟩
  have h4 := h3.step (i := ArpEv.thread ⟨some 0x200, true, true⟩)
    ⟨trivial, ⟨by decide, by decide, fun b hb => Option.some.inj hb ▸ not_busy (by decide) (by decide) (by decide)⟩, rfl⟩
  have h5 := h4.step (i := ArpEv.drain) ⟨trivial, trivial, rfl⟩
  have h6 := h5.step (i := ArpEv.input 0x300 (Arp.Traffic.replyOf 7) true) ⟨trivial, not_busy (by decide) (by decide) (by decide), rfl⟩
  have h7 := h6.step (i := ArpEv.thread ⟨none, true, true⟩) ⟨trivial, ⟨by decide, by decide, nofun⟩, rfl⟩
  exact ⟨_, by decide, by decide, (parked_conserved h7).1⟩

theorem starved_reach (h : system.Reach c) (hw : c.pc ≠ .waiting) (ha : c.pc ≠ .awaiting) :
    system.Reach (c.next starved) :=
  h.step (i := starved) ⟨⟨hw, ha, nofun⟩, rfl⟩

theorem packet_reach (h : system.Reach c) (a : Addr) : system.Reach (c.next (packet a)) :=
  h.step (i := packet a) ⟨(by decide : (40 : UInt32) ≠ 0), rfl⟩

/-- **A packet put out again while it is parked**, another behind it, no buffer for the request: two of
three are released, one is lost. -/
theorem parked_twice : ∃ c : ArpClient, system.Reach c ∧ c.pc = .waiting ∧ c.sem = 0 ∧
    c.parked.map Prod.fst = [0x100, 0x100, 0x200] ∧ c.io.dropped = [0x100, 0x200] ∧ c.io.moved = [] ∧ ¬ c.Conserved := by
  have h1 := starved_reach (.start quiet_start) (by decide) (by decide)
  have h4 := packet_reach (packet_reach (packet_reach h1 0x100) 0x100) 0x200
  have h6 := starved_reach (starved_reach h4 (by decide) (by decide)) (by decide) (by decide)
  have h8 := starved_reach (starved_reach h6 (by decide) (by decide)) (by decide) (by decide)
  have h10 := starved_reach (starved_reach h8 (by decide) (by decide)) (by decide) (by decide)
  have h12 := starved_reach (starved_reach h10 (by decide) (by decide)) (by decide) (by decide)
  refine ⟨_, h12, by decide, by decide, by decide, by decide, by decide, ?_⟩
  rintro ⟨rq, oq, hb, hidle⟩
  obtain rfl := hidle (by decide)
  have hlen := congrArg List.length hb.parked
  revert hlen
  decide

end ArpClient
end Vsf
