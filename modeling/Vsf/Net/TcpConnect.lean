/-
# TCP connections: connecting

`vsfip_tcp_connect` binds a local port, sends a SYN and waits for an event. `connecting` is such a
call with the segments and ticks that come meanwhile. The call also returns `VSFERR_NONE` when the
next port is taken, and `SYN_SENT` takes any segment with SYN or ACK that acknowledges the SYN;
without these a run is right (`connect_sound`).
-/
import Mathlib
import Vsf.Net.TcpRuns

namespace Vsf
namespace Tcp

open Ip List

/-- Where the protothread of `vsfip_tcp_connect` waits. -/
inductive ConnectPc
  | start
  | waiting
deriving DecidableEq

namespace Sock

/-- A local port is bound, if none is yet; the next port is used up anyway. -/
def autoBind (s : Sock) : Bool × Sock :=
  if s.localPort ≠ 0 then (true, s)
  else
    let port := s.stack.tcpPort
    let s := { s with stack := { s.stack with tcpPort := port + 1 } }
    match bind s.stack.ports port with
    | none => (false, s)
    | some _ => (true, { s with localPort := port })

/-- `vsfip_tcp_connect` once there is a local port. -/
def sendSyn (s : Sock) (sm : ℕ) : Sock :=
  let tsn := s.stack.tsn
  let s := { s with
    pcb := { s.pcb with lseq := tsn, ackedLseq := tsn, rseq := 0, txRetry := 3 }
    stack := { s.stack with tsn := tsn + 0x10000 } }
  let s := (s.sendflags { syn := true }).2
  { s with pcb := { s.pcb with lseq := s.pcb.lseq + 1, state := .synSent, txSm := some sm } }

/-- `vsfip_tcp_connect`, from where its protothread waits. -/
def connect (s : Sock) (sm : ℕ) (pc : ConnectPc) (evt : Evt) (sockaddr : Option Sockaddr) : VsfErr × ConnectPc × Sock :=
  match pc with
  | .start =>
    if sockaddr.isNone ∨ s.pcb.state ≠ .closed then (.invalidParameter, .start, s)
    else if s.pcb.txSm.isSome then (.bug, .start, s)
    else
      let r := s.autoBind
      if r.1 then (.notReady, .waiting, r.2.sendSyn sm) else (.none, .start, r.2)
  | .waiting =>
    if evt = .connectok ∨ evt = .connectfail ∨ evt = .timeout then
      (if evt = .connectok then .none else .fail, .start, { s with pcb := { s.pcb with lseq := s.pcb.ackedLseq } })
    else (.notReady, .waiting, s)

/-- A local port is wanted and the next one is taken. -/
def Collides (s : Sock) (sockaddr : Option Sockaddr) : Prop :=
  sockaddr.isSome ∧ s.pcb.state = .closed ∧ s.pcb.txSm = none ∧ s.localPort = 0 ∧ s.stack.tcpPort ∈ s.stack.ports

/-- A segment that acknowledges the SYN, with ACK or SYN but not both. -/
def Stray (s : Sock) (seg : Seg) : Prop :=
  ¬ (s.listener.backlog > 0 ∧ seg.flags ≠ { syn := true }) ∧ seg.flags.rst = false ∧ seg.flags ≠ { syn := true } ∧
  (seg.flags.syn ∨ seg.flags.ack) ∧ ¬ (seg.flags.syn ∧ seg.flags.ack) ∧ seg.ackseq = s.pcb.lseq

/-- The answer to the SYN. -/
def Answers (s : Sock) (seg : Seg) : Prop := seg.flags.syn ∧ seg.flags.ack ∧ seg.ackseq = s.pcb.lseq

/-- What a segment may do in `SYN_SENT`. -/
structure Opens (s : Sock) (seg : Seg) (s' : Sock) : Prop where
  established : s'.pcb.state = .established → s.Answers seg ∧ s'.pcb.rseq = seg.seq + 1
  stays : seg.flags.rst = false → ¬ s.Answers seg →
    s'.pcb.state = .synSent ∨ seg.flags = { syn := true } ∧ s'.pcb.state = .synGet

end Sock

/-- A connection with a `vsfip_tcp_connect`: its protothread, its last result, and how many events it
handled. -/
structure Connecting where
  sock : Sock
  pc : ConnectPc
  err : VsfErr
  handled : ℕ

/-- The events posted to the caller and not handled yet. -/
def Connecting.pending (sm : ℕ) (x : Connecting) : List Evt :=
  ((x.sock.log.posted.filter fun p => p.1 = sm).map Prod.snd).drop x.handled

/-- What happens while a connection is opened. -/
inductive ConnectAct
  | call (sockaddr : Option Sockaddr)
  | handle
  | segment (seg : Seg)
  | tick

/-- Calls of `vsfip_tcp_connect` by one state machine, with segments and ticks. -/
def connecting (sm : ℕ) : System Connecting ConnectAct where
  start x := x.sock.env = [] ∧ x.pc = .start ∧ x.pending sm = []
  step x i x' :=
    match i with
    | .call sockaddr => x.pc = .start ∧
        x.sock.connect sm .start .other sockaddr = (x'.err, x'.pc, x'.sock) ∧ x'.handled = x.handled
    | .handle => ∃ evt evts, x.pending sm = evt :: evts ∧ x'.handled = x.handled + 1 ∧
        (x.pc = .waiting ∧ x.sock.connect sm .waiting evt none = (x'.err, x'.pc, x'.sock) ∨
          x.pc = .start ∧ x'.sock = x.sock ∧ x'.pc = x.pc ∧ x'.err = x.err)
    | .segment seg => x.sock.input seg = some x'.sock ∧ x'.pc = x.pc ∧ x'.err = x.err ∧ x'.handled = x.handled
    | .tick => x'.sock = x.sock.tick ∧ x'.pc = x.pc ∧ x'.err = x.err ∧ x'.handled = x.handled

/-- A call succeeds only at an established connection, and only a proper segment establishes one. -/
structure Connecting.Right (x : Connecting) (i : ConnectAct) (x' : Connecting) : Prop where
  returns : (∃ sockaddr, i = .call sockaddr) ∨ i = .handle ∧ x.pc = .waiting → x'.err = .none →
    x'.sock.pcb.state = .established
  opens : ∀ seg, i = .segment seg → x.sock.pcb.state = .synSent → x.sock.Opens seg x'.sock
  only : x.sock.pcb.state = .synSent → x'.sock.pcb.state = .established → ∃ seg, i = .segment seg

/-- What a run of right steps keeps. -/
structure Connecting.Inv (sm : ℕ) (x : Connecting) : Prop where
  env : x.sock.env = []
  pending : .connectok ∈ x.pending sm → x.sock.pcb.state = .established

/-- The right steps: no port collides, no stray segment comes, and nothing closes before `CONNECTOK` is
handled. -/
def Connecting.Good (sm : ℕ) (x : Connecting) : ConnectAct → Prop
  | .call sockaddr => ¬ x.sock.Collides sockaddr
  | .handle => True
  | .segment seg => (x.sock.pcb.state = .synSent → ¬ x.sock.Stray seg) ∧
      (.connectok ∈ x.pending sm → seg.flags.rst = false ∧ seg.flags.fin = false)
  | .tick => .connectok ∈ x.pending sm → ∀ b ∈ x.sock.outq, ¬ (b.ttl = 1 ∧ b.retry = 1)

namespace Sock

variable {s s' s'' : Sock} {seg : Seg} {l : Frame}

/-! ### The call -/

theorem autoBind_fst (s : Sock) : s.autoBind.1 = false ↔ s.localPort = 0 ∧ s.stack.tcpPort ∈ s.stack.ports := by
  unfold autoBind Ip.bind
  by_cases h1 : s.localPort ≠ 0
  · rw [if_pos h1]
    exact iff_of_false (by simp) fun h => h1 h.1
  · rw [if_neg h1]
    by_cases h2 : s.stack.tcpPort ∈ s.stack.ports
    · simp [h2, not_not.mp h1]
    · simp [h2]

theorem autoBind_snd (s : Sock) : s.autoBind.2.pcb = s.pcb ∧ s.autoBind.2.env = s.env ∧ s.autoBind.2.log = s.log := by
  unfold autoBind
  split_ifs
  · exact ⟨rfl, rfl, rfl⟩
  · dsimp only
    split <;> exact ⟨rfl, rfl, rfl⟩

/-- **A call succeeds at once only when the port collides.** -/
theorem call_iff (s : Sock) (sm : ℕ) (evt : Evt) (sockaddr : Option Sockaddr) :
    ((s.connect sm .start evt sockaddr).1 = .none → (s.connect sm .start evt sockaddr).2.2.pcb.state = .established) ↔
      ¬ s.Collides sockaddr := by
  unfold connect Collides
  by_cases h1 : sockaddr.isNone = true ∨ s.pcb.state ≠ .closed
  · rw [if_pos h1]
    refine iff_of_true (fun h => by cases h) fun h => ?_
    rcases h1 with h1 | h1
    · simp [Option.isNone_iff_eq_none.mp h1] at h
    · exact h1 h.2.1
  rw [if_neg h1]
  push Not at h1
  by_cases h2 : s.pcb.txSm.isSome = true
  · rw [if_pos h2]
    refine iff_of_true (fun h => by cases h) fun h => ?_
    rw [h.2.2.1] at h2
    cases h2
  rw [if_neg h2]
  by_cases h3 : s.autoBind.1 = true
  · rw [if_pos h3]
    refine iff_of_true (fun h => by cases h) fun h => ?_
    exact Bool.noConfusion (h3.symm.trans ((autoBind_fst s).mpr h.2.2.2))
  · rw [if_neg h3]
    have hport := (autoBind_fst s).mp (by simpa using h3)
    refine iff_of_false (fun h => ?_) fun h => h ⟨?_, h1.2, by simpa using h2, hport⟩
    · have hst := h rfl
      rw [(autoBind_snd s).1, h1.2] at hst
      cases hst
    · simpa [Option.isSome_iff_ne_none] using h1.1

/-! ### Events -/

/-- What is posted without success. -/
structure Posts (s s' : Sock) : Prop where
  env : s'.env = []
  posted : ∃ new, s'.log.posted = s.log.posted ++ new ∧ ∀ p ∈ new, p.2 ≠ .connectok

/-- What is posted, with success only at an established connection. -/
structure Connects (s s' : Sock) : Prop where
  env : s'.env = []
  posted : ∃ new, s'.log.posted = s.log.posted ++ new ∧
    ((∃ p ∈ new, p.2 = Evt.connectok) → s'.pcb.state = .established)

theorem Posts.of_eq (he : s'.env = []) (hp : s'.log.posted = s.log.posted) : Posts s s' :=
  ⟨he, [], by rw [hp, append_nil], by simp⟩

theorem Posts.trans (h : Posts s s') (h' : Posts s' s'') : Posts s s'' := by
  obtain ⟨new, h1, h2⟩ := h.posted
  obtain ⟨new', h3, h4⟩ := h'.posted
  refine ⟨h'.env, new ++ new', by rw [h3, h1, append_assoc], fun p hp => ?_⟩
  rcases mem_append.mp hp with hp | hp
  · exact h2 p hp
  · exact h4 p hp

theorem Posts.connects (h : Posts s s') : Connects s s' := by
  obtain ⟨new, h1, h2⟩ := h.posted
  exact ⟨h.env, new, h1, fun ⟨p, hp, heq⟩ => absurd heq (h2 p hp)⟩

theorem Posts.trans_connects (h : Posts s s') (h' : Connects s' s'') : Connects s s'' := by
  obtain ⟨new, h1, h2⟩ := h.posted
  obtain ⟨new', h3, h4⟩ := h'.posted
  refine ⟨h'.env, new ++ new', by rw [h3, h1, append_assoc], fun ⟨p, hp, heq⟩ => ?_⟩
  rcases mem_append.mp hp with hp | hp
  · exact absurd heq (h2 p hp)
  · exact h4 ⟨p, hp, heq⟩

theorem react_nil (h : s.env = []) : s.react = s := by rw [react, h]

theorem postTx_nil (evt : Evt) (h : s.env = []) : ∃ sm new, s.postTx evt = { s with
    pcb := { s.pcb with txSm := sm }
    log := { s.log with posted := s.log.posted ++ new } } ∧ ∀ p ∈ new, p.2 = evt := by
  unfold postTx
  cases s.pcb.txSm with
  | none => exact ⟨s.pcb.txSm, [], by rw [append_nil], by simp⟩
  | some sm => exact ⟨none, [(sm, evt)], react_nil h, by simp⟩

theorem postRx_nil (evt : Evt) (h : s.env = []) : ∃ sm new, s.postRx evt = { s with
    pcb := { s.pcb with rxSm := sm }
    log := { s.log with posted := s.log.posted ++ new } } ∧ ∀ p ∈ new, p.2 = evt := by
  unfold postRx
  cases s.pcb.rxSm with
  | none => exact ⟨s.pcb.rxSm, [], by rw [append_nil], by simp⟩
  | some sm => exact ⟨none, [(sm, evt)], react_nil h, by simp⟩

variable {evt : Evt} {sm : ℕ} {x x' : Connecting}

theorem postTx_posts (h : s.env = []) (hevt : evt ≠ .connectok) : Posts s (s.postTx evt) := by
  obtain ⟨sm, new, heq, hnew⟩ := postTx_nil evt h
  rw [heq]
  exact ⟨h, new, rfl, fun p hp => by rw [hnew p hp]; exact hevt⟩

theorem postRx_posts (h : s.env = []) (hevt : evt ≠ .connectok) : Posts s (s.postRx evt) := by
  obtain ⟨sm, new, heq, hnew⟩ := postRx_nil evt h
  rw [heq]
  exact ⟨h, new, rfl, fun p hp => by rw [hnew p hp]; exact hevt⟩

theorem sendflags_posts (f : Flags) (h : s.env = []) : Posts s (s.sendflags f).2 := .of_eq (by simp [h]) (by simp)

theorem drop_posts (h : s.env = []) : Posts s (s.drop seg) := .of_eq h rfl

theorem dataInput_posts (h : s.env = []) : Posts s (s.dataInput seg) := by
  unfold dataInput
  dsimp only
  split_ifs
  · rw [react_nil (s := s.count seg) h]
    exact .of_eq h rfl
  · exact .of_eq h rfl

theorem ackOne_nil (b : Buf) (q : List Buf) (h : s.env = []) : s.ackOne b q =
    ({ s with outq := q, log := { s.log with acked := s.log.acked ++ [b] } } : Sock).release b.id := by
  unfold ackOne
  dsimp only
  split_ifs
  · rw [react_nil (by exact h)]
  · rfl

theorem ackLoop_posts : ∀ (f : ℕ) {s : Sock}, s.env = [] → Posts s (ackLoop f s)
  | 0, _, h => .of_eq h rfl
  | f + 1, s, h => by
    unfold ackLoop
    cases hq : s.outq with
    | nil => exact .of_eq h rfl
    | cons b q =>
      dsimp only
      split_ifs
      · have hone : Posts s (s.ackOne b q) := by
          rw [ackOne_nil b q h]
          exact .of_eq h rfl
        exact hone.trans (ackLoop_posts f hone.env)
      · exact .of_eq h rfl

theorem ackInput_posts (a : UInt32) (h : s.env = []) : Posts s (s.ackInput a) := by
  set u : Sock := { s with pcb := { s.pcb with txTimeoutMs := 0, ackedLseq := a } }
  have hu : u.env = [] := h
  have hset : Posts s u := .of_eq h rfl
  exact hset.trans (ackLoop_posts (s.pending + 1) hu)

theorem posts_kept (s : Sock) (seg : Seg) : Kept (Posts s ·) seg where
  drop _ h := h.trans (.of_eq h.env rfl)
  look _ h := h.trans (.of_eq h.env rfl)
  flags _ f h _ := h.trans (sendflags_posts f h.env)
  postTx _ _ h hevt := h.trans (postTx_posts h.env hevt)
  postRx _ _ h hevt := h.trans (postRx_posts h.env hevt)
  discard _ h _ _ _ := h.trans (.of_eq h.env rfl)
  fin u h _ _ _ _ := h.trans (.of_eq (by simp [passiveClose, h.env]) (by simp [passiveClose]))
  finAcked _ h _ _ _ := h.trans (.of_eq h.env rfl)
  finWait2 _ h _ := h.trans (.of_eq h.env rfl)
  closed _ h _ := h.trans (.of_eq h.env rfl)
  data _ h _ _ _ := h.trans (dataInput_posts h.env)
  ack _ h _ _ _ := h.trans (ackInput_posts seg.ackseq h.env)

theorem reset_posts (h : s.env = []) : Posts s (reset seg s) := by
  unfold reset
  set u : Sock := { s.drop seg with
    pcb := { (s.drop seg).pcb with txTimeoutMs := 0, rxTimeoutMs := 0, state := .closed }
    net := ((s.drop seg).net.freeList (s.drop seg).inq).freeList (s.drop seg).outq
    inq := []
    outq := [] }
  have hu : Posts s u := .of_eq h rfl
  have htx : Posts s (u.postTx .timeout) := hu.trans (postTx_posts hu.env (by decide))
  exact htx.trans (postRx_posts htx.env (by decide))

theorem connected_nil (l : Frame) (seg : Seg) (h : s.env = []) : ∃ new,
    (connected l seg s).env = [] ∧ (connected l seg s).log.posted = s.log.posted ++ new ∧
    (connected l seg s).pcb.state = .established ∧ (connected l seg s).pcb.rseq = s.pcb.rseq := by
  unfold connected
  set u : Sock := { s with pcb := { s.pcb with rclose := false, lclose := false, state := .established } }
  have hu : ∀ v : Sock, v = (if l.release then u.drop seg else u) →
      v.env = [] ∧ v.log.posted = s.log.posted ∧ v.pcb.state = .established ∧ v.pcb.rseq = s.pcb.rseq := by
    rintro v rfl
    split_ifs <;> exact ⟨h, rfl, rfl, rfl⟩
  obtain ⟨h1, h2, h3, h4⟩ := hu _ rfl
  obtain ⟨sm, new, heq, -⟩ := postTx_nil .connectok h1
  rw [heq]
  exact ⟨new, h1, by rw [h2], h3, h4⟩

theorem connected_connects (h : s.env = []) : Connects s (connected l seg s) := by
  obtain ⟨new, h1, h2, h3, -⟩ := connected_nil l seg h
  exact ⟨h1, new, h2, fun _ => h3⟩

theorem synSent_connects (h : s.env = []) : Connects s (synSent l seg s) := by
  unfold synSent
  split_ifs
  · exact (Posts.of_eq (by simp [drop, h]) (by simp [drop])).connects
  · refine Posts.trans_connects ?_ (connected_connects (by simp [h]))
    exact .of_eq (by simp [h]) (by simp)
  · exact (drop_posts h).connects

theorem synGet_connects (h : s.env = []) : Connects s (synGet l seg s) := by
  set u : Sock := ({ s with pcb := { s.pcb with
    txTimeoutMs := 0, ackedLseq := seg.ackseq, lseq := seg.ackseq } } : Sock).look
  have hu : Posts s u := .of_eq h rfl
  unfold synGet
  dsimp only
  split_ifs
  · exact (Posts.of_eq (by simp [drop, h]) (by simp [drop])).connects
  · have hd : Posts s (u.dataInput seg) := hu.trans (dataInput_posts hu.env)
    exact hd.trans_connects (connected_connects hd.env)
  · have hf := hu.trans (sendflags_posts { ack := true } hu.env)
    exact hf.trans_connects (connected_connects hf.env)
  · exact hu.trans_connects (connected_connects hu.env)
  · exact (Posts.of_eq (by simp [drop, h]) (by simp [drop])).connects
  · exact (drop_posts h).connects

theorem listen_posts (h : s.env = []) : Posts s (listen l seg s) := by
  unfold listen
  split_ifs
  · cases s.stack.sockets with
    | zero => exact .of_eq h rfl
    | succ n => exact .of_eq (by simp [drop, h]) (by simp [drop])
  · exact .of_eq h rfl

theorem passes_connects (h : s.env = []) : Connects s (s.passes seg) := by
  have hkept : s.pcb.state.synchronised ∨ s.pcb.state = .closed ∨ s.pcb.state = .invalid → Connects s (s.passes seg) :=
    fun hst => (passes_kept (posts_kept s seg) hst (.of_eq h rfl)).connects
  cases hst : s.pcb.state with
  | listen =>
    unfold passes pass
    rw [hst]
    exact (listen_posts h).connects
  | synSent =>
    unfold passes pass
    rw [hst]
    exact synSent_connects h
  | synGet =>
    unfold passes pass
    rw [hst]
    exact synGet_connects h
  | invalid => exact hkept (.inr (.inr hst))
  | closed => exact hkept (.inr (.inl hst))
  | established => exact hkept (.inl (by rw [hst]; rfl))
  | finWait1 => exact hkept (.inl (by rw [hst]; rfl))
  | finWait2 => exact hkept (.inl (by rw [hst]; rfl))
  | closeWait => exact hkept (.inl (by rw [hst]; rfl))
  | lastAck => exact hkept (.inl (by rw [hst]; rfl))

/-- **A segment posts `CONNECTOK` only when it establishes the connection.** -/
theorem input_connects (h : s.env = []) (hs : s.input seg = some s') : Connects s s' := by
  set u : Sock := { s with pcb := { s.pcb with rwnd := seg.windowSize.toUInt32 } } with hu
  have hset : Posts s u := .of_eq h rfl
  rw [input_eq, Option.some.injEq] at hs
  rw [← hs]
  split_ifs
  · exact (drop_posts h).connects
  · exact (hset.trans (reset_posts hset.env)).connects
  · exact hset.trans_connects (passes_connects hset.env)

/-! ### Ticks -/

theorem repeatFlags_posts (h : s.env = []) : Posts s s.repeatFlags :=
  .of_eq (by simp [repeatFlags, h]) (by simp [repeatFlags])

theorem giveUp_posts (h : s.env = []) : Posts s s.giveUp := by
  unfold giveUp
  refine Posts.trans ?_ (postTx_posts ?_ (by decide))
  · exact .of_eq h rfl
  · exact h

theorem tickTx_posts (h : s.env = []) : Posts s s.tickTx.1 := by
  have hset : ∀ t r : UInt32, Posts s { s with pcb := { s.pcb with txTimeoutMs := t, txRetry := r } } :=
    fun _ _ => .of_eq h rfl
  unfold tickTx
  dsimp only
  split_ifs
  · exact (hset _ _).trans (repeatFlags_posts h)
  · exact .of_eq h rfl
  · exact (hset _ _).trans (giveUp_posts h)
  · exact hset _ s.pcb.txRetry
  · exact .of_eq h rfl

theorem tickRx_posts (h : s.env = []) : Posts s s.tickRx.1 := by
  unfold tickRx
  dsimp only
  split_ifs
  · refine Posts.trans ?_ (postRx_posts ?_ (by decide))
    · exact .of_eq h rfl
    · exact h
  · exact .of_eq h rfl
  · exact .of_eq h rfl

theorem flushOut_posts (h : s.env = []) : Posts s s.flushOut := by
  unfold flushOut
  refine Posts.trans (.of_eq ?_ ?_) (postTx_posts ?_ (by decide)) <;> simp [h]

theorem resend_posts (b : Buf) (h : s.env = []) : Posts s (s.resend b).2 := by
  have hdo : ∀ (u : Sock) (c : Buf), (u.sendDo c { psh := true }).2.2.env = u.env ∧
      (u.sendDo c { psh := true }).2.2.log.posted = u.log.posted := by
    intro u c
    rcases lt_or_ge c.room (Flags.headlen { psh := true }) with hr | hr
    · rw [sendDo_noRoom hr]
      exact ⟨rfl, rfl⟩
    · rw [sendDo_sends hr]
      exact ⟨rfl, rfl⟩
  unfold resend
  exact .of_eq ((hdo _ _).1.trans h) (hdo _ _).2

theorem tickLoop_posts : ∀ (rest done : List Buf) {s : Sock}, s.env = [] → Posts s (tickLoop done rest s).1
  | [], _, _, h => .of_eq h rfl
  | b :: rest, done, s, h => by
    unfold tickLoop
    dsimp only
    have hflush : ∀ q, Posts s (flushOut { s with outq := q }) := by
      intro q
      have hset : Posts s { s with outq := q } := .of_eq h rfl
      exact hset.trans (flushOut_posts hset.env)
    have hresend : ∀ c q, Posts s (tickLoop q rest (s.resend c).2).1 :=
      fun c q => (resend_posts c h).trans (tickLoop_posts rest q (resend_posts c h).env)
    split_ifs
    · exact tickLoop_posts rest _ h
    · exact hresend _ _
    · exact hflush _
    · exact hresend _ _
    · exact hflush _

theorem tickAck_posts (h : s.env = []) : Posts s s.tickAck := by
  unfold tickAck
  dsimp only
  split_ifs
  · exact .of_eq (by simp [h]) (by simp)
  · exact .of_eq h rfl
  · exact .of_eq h rfl

/-- **A tick posts no `CONNECTOK`.** -/
theorem tick_posts (h : s.env = []) : Posts s s.tick := by
  have h0 : Posts s s.checkBuff := .of_eq h rfl
  have h1 := h0.trans (tickTx_posts h0.env)
  have h2 := h1.trans (tickRx_posts h1.env)
  have h3 := h2.trans (tickLoop_posts s.checkBuff.tickTx.1.tickRx.1.outq [] h2.env)
  unfold tick socketTick
  dsimp only
  split_ifs
  · exact h1
  · exact h2
  · exact h3
  · exact h3.trans (tickAck_posts h3.env)

/-! ### Staying established -/

/-- Established, and nobody else runs. -/
def Quiet (s : Sock) : Prop := s.env = [] ∧ s.pcb.state = .established

theorem postTx_quiet (evt : Evt) (h : s.Quiet) : (s.postTx evt).Quiet := by
  obtain ⟨sm, new, heq, -⟩ := postTx_nil evt h.1
  rw [heq]
  exact h

theorem postRx_quiet (evt : Evt) (h : s.Quiet) : (s.postRx evt).Quiet := by
  obtain ⟨sm, new, heq, -⟩ := postRx_nil evt h.1
  rw [heq]
  exact h

theorem ackLoop_state : ∀ (f : ℕ) {s : Sock}, s.env = [] → (ackLoop f s).pcb.state = s.pcb.state
  | 0, _, _ => rfl
  | f + 1, s, h => by
    unfold ackLoop
    cases hq : s.outq with
    | nil => rfl
    | cons b q =>
      dsimp only
      split_ifs
      · have hone := ackOne_nil b q h
        rw [ackLoop_state f (by rw [hone]; exact h), hone]
        rfl
      · rfl

theorem quiet_kept (hf : seg.flags.fin = false) : Kept Quiet seg where
  drop _ h := h
  look _ h := h
  flags _ _ h _ := ⟨by rw [sendflags_env]; exact h.1, by rw [sendflags_state]; exact h.2⟩
  postTx _ evt h _ := postTx_quiet evt h
  postRx _ evt h _ := postRx_quiet evt h
  discard _ h _ _ _ := h
  fin _ _ _ _ _ hfin := absurd (hfin.symm.trans hf) (by decide)
  finAcked _ h _ _ _ := h
  finWait2 _ h hst := absurd (h.2.symm.trans hst) (by decide)
  closed _ h hst := absurd (h.2.symm.trans hst) (by decide)
  data _ h _ _ _ := by
    unfold dataInput
    dsimp only
    split_ifs
    · rw [react_nil (s := count _ seg) h.1]
      exact h
    · exact h
  ack u h _ _ _ := by
    refine ⟨(ackInput_posts seg.ackseq h.1).env, ?_⟩
    unfold ackInput
    rw [ackLoop_state _ (by exact h.1)]
    exact h.2

theorem input_quiet (h : s.Quiet) (hr : seg.flags.rst = false) (hf : seg.flags.fin = false)
    (hs : s.input seg = some s') : s'.Quiet := by
  refine input_kept (quiet_kept hf) (fun _ hu => hu) (fun hrst => absurd (hrst.symm.trans hr) (by decide)) ?_ h hs
  rintro u hu (hst | hst | hst) <;> exact absurd (hu.2.symm.trans hst) (by decide)

theorem tickTx_quiet (h : s.Quiet) : s.tickTx.1.Quiet ∧ (s.tickTx.1.outq = s.outq ∨ s.tickTx.1.outq = []) := by
  unfold tickTx
  dsimp only
  split_ifs
  · exact ⟨⟨by simp [repeatFlags, h.1], by simp [repeatFlags, h.2]⟩, .inl (by simp [repeatFlags])⟩
  · exact ⟨h, .inr rfl⟩
  · unfold giveUp
    obtain ⟨sm, new, heq, -⟩ := postTx_nil (s := { s with pcb := { s.pcb with
      txTimeoutMs := s.pcb.txTimeoutMs - 1
      txRetry := s.pcb.txRetry - 1
      state := if s.pcb.state = Stat.synSent ∨ s.pcb.state = Stat.synGet ∨ s.pcb.state = Stat.lastAck then .closed
        else s.pcb.state } }) .timeout h.1
    rw [heq]
    refine ⟨⟨h.1, ?_⟩, .inl rfl⟩
    rw [h.2, if_neg (by decide)]
  · exact ⟨h, .inl rfl⟩
  · exact ⟨h, .inl rfl⟩

theorem tickRx_quiet (h : s.Quiet) : s.tickRx.1.Quiet ∧ s.tickRx.1.outq = s.outq := by
  unfold tickRx
  dsimp only
  split_ifs
  · obtain ⟨sm, new, heq, -⟩ := postRx_nil (s := { s with pcb := { s.pcb with
      rxTimeoutMs := s.pcb.rxTimeoutMs - 1 } }) .timeout h.1
    rw [heq]
    exact ⟨h, rfl⟩
  · exact ⟨h, rfl⟩
  · exact ⟨h, rfl⟩

theorem resend_state (s : Sock) (b : Buf) : (s.resend b).2.pcb.state = s.pcb.state := by
  unfold resend
  dsimp only
  set u : Sock := { s with pcb := { s.pcb with lseq := b.addr }, net := s.net.reference b.id }
  set c : Buf := { b with ttl := s.opts.txTimeoutMs.toUInt16 }
  rcases lt_or_ge c.room (Flags.headlen { psh := true }) with hr | hr
  · rw [sendDo_noRoom hr]
    rfl
  · rw [sendDo_sends hr]

/-- Segments are sent again, but none often enough to give up. -/
theorem tickLoop_state : ∀ (rest done : List Buf) {s : Sock}, s.pcb.state = .established →
    (∀ b ∈ rest, ¬ (b.ttl = 1 ∧ b.retry = 1)) → (tickLoop done rest s).1.pcb.state = .established
  | [], _, _, h, _ => h
  | b :: rest, done, s, h, hb => by
    have hrest : ∀ b ∈ rest, ¬ (b.ttl = 1 ∧ b.retry = 1) := fun c hc => hb c (mem_cons_of_mem b hc)
    unfold tickLoop
    by_cases httl : b.ttl - 1 ≠ 0
    · rw [if_pos httl]
      exact tickLoop_state rest _ h hrest
    · have hretry : b.retry ≠ 1 := fun hr => hb b mem_cons_self ⟨sub_eq_zero.mp (not_not.mp httl), hr⟩
      have hagain : (b.retry = 0 ∨ (if b.retry = 0 then 0 else b.retry - 1) ≠ 0) ∧ s.pcb.state ≠ .closeWait := by
        refine ⟨?_, by rw [h]; decide⟩
        by_cases h0 : b.retry = 0
        · exact .inl h0
        · refine .inr ?_
          rw [if_neg h0]
          exact fun hz => hretry (sub_eq_zero.mp hz)
      rw [if_neg httl, if_pos hagain]
      exact tickLoop_state rest _ ((resend_state s _).trans h) hrest

theorem tick_established (h : s.Quiet) (hq : ∀ b ∈ s.outq, ¬ (b.ttl = 1 ∧ b.retry = 1)) :
    s.tick.pcb.state = .established := by
  have h0 : s.checkBuff.Quiet := h
  obtain ⟨h1, ho1⟩ := tickTx_quiet h0
  obtain ⟨h2, ho2⟩ := tickRx_quiet h1
  have hq2 : ∀ b ∈ s.checkBuff.tickTx.1.tickRx.1.outq, ¬ (b.ttl = 1 ∧ b.retry = 1) := by
    rw [ho2]
    rcases ho1 with ho | ho
    · rw [ho]
      exact hq
    · rw [ho]
      simp
  have h3 := tickLoop_state s.checkBuff.tickTx.1.tickRx.1.outq [] h2.2 hq2
  unfold tick socketTick
  dsimp only
  split_ifs
  · exact h1.2
  · exact h2.2
  · exact h3
  · unfold tickAck
    dsimp only
    split_ifs
    · rw [sendflags_state]
      exact h3
    · exact h3
    · exact h3

/-! ### In `SYN_SENT` -/

theorem reset_state (h : s.env = []) : (reset seg s).pcb.state = .closed := by
  unfold reset
  dsimp only
  set u : Sock := { s.drop seg with
    pcb := { (s.drop seg).pcb with txTimeoutMs := 0, rxTimeoutMs := 0, state := .closed }
    net := ((s.drop seg).net.freeList (s.drop seg).inq).freeList (s.drop seg).outq
    inq := []
    outq := [] }
  have hu : u.env = [] := h
  obtain ⟨sm, new, heq, -⟩ := postTx_nil .timeout hu
  rw [heq]
  obtain ⟨sm', new', heq', -⟩ := postRx_nil (s := { u with
    pcb := { u.pcb with txSm := sm }
    log := { u.log with posted := u.log.posted ++ new } }) .timeout hu
  rw [heq']

theorem synSent_pcb (l : Frame) (seg : Seg) (he : s.env = []) (hst : s.pcb.state = .synSent) :
    (synSent l seg s).pcb.state =
      (if l.flags = { syn := true } then .synGet
        else if (l.flags.syn ∨ l.flags.ack) ∧ seg.ackseq = s.pcb.lseq then .established else .synSent) ∧
    ((synSent l seg s).pcb.state = .established → (synSent l seg s).pcb.rseq = seg.seq + 1) := by
  unfold synSent
  split_ifs
  · exact ⟨rfl, fun h => by cases h⟩
  · set u : Sock := ({ s with pcb := { s.pcb with
      txTimeoutMs := 0, rseq := seg.seq + 1, ackedLseq := s.pcb.lseq } } : Sock)
    have hu : (u.sendflags { ack := true }).2.env = [] := by rw [sendflags_env]; exact he
    obtain ⟨-, -, -, h1, h2⟩ := connected_nil l seg hu
    exact ⟨h1, fun _ => by rw [h2, sendflags_rseq]⟩
  · exact ⟨hst, fun h => by rw [drop_pcb, hst] at h; cases h⟩

/-- **Which segments are handled right in `SYN_SENT`.** -/
theorem synSent_iff (he : s.env = []) (hst : s.pcb.state = .synSent) (hs : s.input seg = some s') :
    s.Opens seg s' ↔ ¬ s.Stray seg := by
  rw [input_eq, Option.some.injEq] at hs
  unfold Stray
  by_cases hb : s.listener.backlog > 0 ∧ seg.flags ≠ { syn := true }
  · rw [if_pos hb] at hs
    refine iff_of_true ⟨fun h => ?_, fun _ _ => .inl ?_⟩ fun h => h.1 hb
    · rw [← hs, drop_pcb, hst] at h
      cases h
    · rw [← hs, drop_pcb, hst]
  rw [if_neg hb] at hs
  set u : Sock := { s with pcb := { s.pcb with rwnd := seg.windowSize.toUInt32 } }
  by_cases hr : seg.flags.rst = true
  · rw [if_pos hr] at hs
    refine iff_of_true ⟨fun h => ?_, fun h => absurd (hr.symm.trans h) (by decide)⟩ fun h => ?_
    · rw [← hs, reset_state (s := u) he] at h
      cases h
    · exact absurd (hr.symm.trans h.2.1) (by decide)
  rw [if_neg hr] at hs
  have hpass : u.passes seg = synSent ⟨seg.flags, true, .synSent⟩ seg u := by
    unfold passes pass
    rw [show u.pcb.state = .synSent from hst]
  obtain ⟨h1, h2⟩ := synSent_pcb (s := u) ⟨seg.flags, true, .synSent⟩ seg he hst
  rw [← hpass, hs] at h1 h2
  by_cases hsyn : seg.flags = { syn := true }
  · rw [if_pos hsyn] at h1
    refine iff_of_true ⟨fun h => ?_, fun _ _ => .inr ⟨hsyn, h1⟩⟩ fun h => h.2.2.1 hsyn
    rw [h1] at h
    cases h
  rw [if_neg hsyn] at h1
  by_cases hack : (seg.flags.syn = true ∨ seg.flags.ack = true) ∧ seg.ackseq = s.pcb.lseq
  · rw [if_pos hack] at h1
    constructor
    · rintro ho ⟨-, -, -, -, hboth, -⟩
      obtain ⟨hans, -⟩ := ho.established h1
      exact hboth ⟨hans.1, hans.2.1⟩
    · intro hstray
      have hboth : seg.flags.syn ∧ seg.flags.ack := by
        by_contra hno
        exact hstray ⟨hb, by simpa using hr, hsyn, hack.1, hno, hack.2⟩
      have hans : s.Answers seg := ⟨hboth.1, hboth.2, hack.2⟩
      exact ⟨fun h => ⟨hans, h2 h⟩, fun _ hno => absurd hans hno⟩
  · rw [if_neg hack] at h1
    refine iff_of_true ⟨fun h => ?_, fun _ _ => .inl h1⟩ fun h => hack ⟨h.2.2.2.1, h.2.2.2.2.2⟩
    rw [h1] at h
    cases h

/-! ### Runs -/

theorem mem_pending {new : List (ℕ × Evt)}
    (hp : x'.sock.log.posted = x.sock.log.posted ++ new) (hh : x'.handled = x.handled) (h : evt ∈ x'.pending sm) :
    evt ∈ x.pending sm ∨ ∃ p ∈ new, p.2 = evt := by
  unfold Connecting.pending at h ⊢
  rw [hp, hh, filter_append, map_append, drop_append] at h
  rcases mem_append.mp h with h | h
  · exact .inl h
  · obtain ⟨p, hp, heq⟩ := mem_map.mp (mem_of_mem_drop h)
    exact .inr ⟨p, (mem_filter.mp hp).1, heq⟩

theorem Connects.inv (hc : Connects x.sock x'.sock) (hh : x'.handled = x.handled)
    (hold : .connectok ∈ x.pending sm → x'.sock.pcb.state = .established) : x'.Inv sm := by
  obtain ⟨new, h1, h2⟩ := hc.posted
  refine ⟨hc.env, fun h => ?_⟩
  rcases mem_pending h1 hh h with h | h
  · exact hold h
  · exact h2 h

/-- A call leaves a connection alone that is not closed. -/
theorem call_connects (sm : ℕ) (evt : Evt) (sockaddr : Option Sockaddr) (he : s.env = []) :
    Connects s (s.connect sm .start evt sockaddr).2.2 ∧
    (s.pcb.state ≠ .closed → (s.connect sm .start evt sockaddr).2.2.pcb.state = s.pcb.state) := by
  obtain ⟨-, h2, h3⟩ := autoBind_snd s
  unfold connect
  dsimp only
  split_ifs with h4 h5 h6
  · exact ⟨(Posts.of_eq he rfl).connects, fun _ => rfl⟩
  · exact ⟨(Posts.of_eq he rfl).connects, fun _ => rfl⟩
  · refine ⟨(Posts.of_eq ?_ ?_).connects, fun h => absurd (.inr h) h4⟩
    · simp [sendSyn, h2, he]
    · simp [sendSyn, h3]
  · exact ⟨(Posts.of_eq (by rw [h2, he]) (by rw [h3])).connects, fun h => absurd (.inr h) h4⟩

theorem handle_sock (s : Sock) (sm : ℕ) (evt : Evt) :
    (s.connect sm .waiting evt none).2.2.env = s.env ∧ (s.connect sm .waiting evt none).2.2.log = s.log ∧
    (s.connect sm .waiting evt none).2.2.pcb.state = s.pcb.state ∧
    ((s.connect sm .waiting evt none).1 = .none → evt = .connectok) := by
  unfold connect
  dsimp only
  split_ifs with h1 h2
  · exact ⟨rfl, rfl, rfl, fun _ => h2⟩
  · exact ⟨rfl, rfl, rfl, fun h => by cases h⟩
  · exact ⟨rfl, rfl, rfl, fun h => by cases h⟩

theorem pending_handled {evts : List Evt} (hp : x.pending sm = evt :: evts)
    (hl : x'.sock.log = x.sock.log) (hh : x'.handled = x.handled + 1) : x'.pending sm = evts := by
  unfold Connecting.pending at hp ⊢
  rw [hl, hh, ← drop_drop, hp]
  rfl

theorem tick_synSent (h : s.pcb.state = .synSent) : s.tick.pcb.state ≠ .established := by
  have ht := (socketTick_ticked s.checkBuff).state
  rw [show s.checkBuff.pcb.state = .synSent from h] at ht
  intro hest
  rw [show s.checkBuff.socketTick.pcb.state = .established from hest] at ht
  split_ifs at ht <;> simp at ht

/-- **A good step is right, and good steps can follow.** -/
theorem connecting_step {i : ConnectAct} (h : x.Inv sm) (hg : x.Good sm i)
    (hs : (connecting sm).step x i x') : x'.Inv sm ∧ x.Right i x' := by
  cases i with
  | call sockaddr =>
    obtain ⟨-, hcall, hh⟩ := hs
    obtain ⟨h1, h2⟩ := call_connects sm .other sockaddr h.env
    have h3 := (call_iff x.sock sm .other sockaddr).mpr hg
    rw [hcall] at h1 h2 h3
    refine ⟨h1.inv hh fun hp => ?_, fun _ => h3, fun seg hi => (by cases hi), fun hst hest => ?_⟩
    · exact (h2 (by rw [h.pending hp]; decide)).trans (h.pending hp)
    · have hsame := h2 (by rw [hst]; decide)
      rw [hst] at hsame
      exact absurd (hsame.symm.trans hest) (by decide)
  | handle =>
    obtain ⟨evt, evts, hp, hh, hrun⟩ := hs
    rcases hrun with ⟨hpc, hcall⟩ | ⟨hpc, hsock, -, -⟩
    · obtain ⟨h1, h2, h3, h4⟩ := handle_sock x.sock sm evt
      rw [hcall] at h1 h2 h3 h4
      refine ⟨⟨h1.trans h.env, fun hmem => ?_⟩, fun _ herr => ?_, fun seg hi => (by cases hi), fun hst hest => ?_⟩
      · rw [pending_handled hp h2 hh] at hmem
        rw [h3]
        exact h.pending (hp ▸ mem_cons_of_mem evt hmem)
      · rw [h3]
        apply h.pending
        rw [hp, h4 herr]
        exact mem_cons_self
      · rw [h3, hst] at hest
        cases hest
    · refine ⟨⟨by rw [hsock]; exact h.env, fun hmem => ?_⟩, fun hw => ?_, fun seg hi => (by cases hi), fun hst hest => ?_⟩
      · rw [pending_handled hp (by rw [hsock]) hh] at hmem
        rw [hsock]
        exact h.pending (hp ▸ mem_cons_of_mem evt hmem)
      · obtain ⟨_, hw⟩ | ⟨-, hw⟩ := hw
        · cases hw
        · exact absurd (hpc.symm.trans hw) (by decide)
      · rw [hsock, hst] at hest
        cases hest
  | segment seg =>
    obtain ⟨hin, -, -, hh⟩ := hs
    refine ⟨(input_connects h.env hin).inv hh fun hp => ?_, fun hw => ?_, fun seg' hi hst => ?_, fun _ _ => ⟨seg, rfl⟩⟩
    · obtain ⟨hr, hf⟩ := hg.2 hp
      exact (input_quiet ⟨h.env, h.pending hp⟩ hr hf hin).2
    · obtain ⟨_, hw⟩ | ⟨hw, -⟩ := hw <;> cases hw
    · cases hi
      exact (synSent_iff h.env hst hin).mpr (hg.1 hst)
  | tick =>
    obtain ⟨hsock, -, -, hh⟩ := hs
    have hc : Connects x.sock x'.sock := hsock ▸ (tick_posts h.env).connects
    refine ⟨hc.inv hh fun hp => ?_, fun hw => ?_, fun seg hi => (by cases hi), fun hst hest => ?_⟩
    · rw [hsock]
      exact tick_established ⟨h.env, h.pending hp⟩ (hg hp)
    · obtain ⟨_, hw⟩ | ⟨hw, -⟩ := hw <;> cases hw
    · exact absurd (hsock ▸ hest) (tick_synSent hst)

/-- **Connecting is sound in every run of good steps**; a call is right unless its port collides, a segment
unless it is stray. -/
theorem connect_sound (sm : ℕ) : (∀ (s : Sock) (evt : Evt) (sockaddr : Option Sockaddr),
      ((s.connect sm .start evt sockaddr).1 = .none →
        (s.connect sm .start evt sockaddr).2.2.pcb.state = .established) ↔ ¬ s.Collides sockaddr) ∧
    (∀ (s s' : Sock) (seg : Seg), s.env = [] → s.pcb.state = .synSent → s.input seg = some s' →
      (s.Opens seg s' ↔ ¬ s.Stray seg)) ∧
    (∀ (x x' : Connecting) (i : ConnectAct), ((connecting sm).restrict (Connecting.Good sm)).Reach x →
      ((connecting sm).restrict (Connecting.Good sm)).step x i x' → x.Right i x') := by
  refine ⟨fun s evt sockaddr => call_iff s sm evt sockaddr, fun s s' seg he hst hs => synSent_iff he hst hs, ?_⟩
  intro x x' i hx hs
  have hinv : x.Inv sm := by
    refine hx.invariant ?_ fun y j y' _ hy hst => (connecting_step hy hst.1 hst.2).1
    rintro y ⟨henv, -, hp⟩
    exact ⟨henv, fun h => absurd (hp ▸ h) not_mem_nil⟩
  exact (connecting_step hinv hs.1 hs.2).2

/-- A closed socket without a port, for examples. -/
def unbound (ports : List UInt16) : Sock :=
  .new true ⟨14, 5840, 5840⟩ ⟨ports, 49152, 0x10000, 3⟩ (.init (some .ethernet) [1, 2, 3, 4])

/-- It has sent its SYN. -/
def called : Connecting :=
  let r := (unbound []).connect 5 .start .other (some ⟨0xc0a80001, 80⟩)
  ⟨r.2.2, r.2.1, r.1, 0⟩

/-- The answer to the SYN. -/
def synAck : Seg := .plain 700 0x10001 { syn := true, ack := true } [] Buf.nil_lt

/-- The answer has come. -/
def replied : Connecting := { called with sock := (called.sock.input synAck).getD called.sock }

/-- The call is over. -/
def ended : Connecting :=
  let r := replied.sock.connect 5 .waiting .connectok none
  ⟨r.2.2, r.2.1, r.1, 1⟩

theorem ended_reach : ((connecting 5).restrict (Connecting.Good 5)).Reach replied ∧
    ((connecting 5).restrict (Connecting.Good 5)).step replied .handle ended := by
  have h0 : ((connecting 5).restrict (Connecting.Good 5)).Reach ⟨unbound [], .start, .notReady, 0⟩ :=
    .start ⟨rfl, rfl, rfl⟩
  have h1 : ((connecting 5).restrict (Connecting.Good 5)).Reach called := by
    refine h0.step (i := .call (some ⟨0xc0a80001, 80⟩)) ⟨fun h => ?_, rfl, rfl, rfl⟩
    exact absurd h.2.2.2.2 (by decide)
  have hin : called.sock.input synAck = some replied.sock := by
    show called.sock.input synAck = some ((called.sock.input synAck).getD called.sock)
    rw [input_eq]
    rfl
  refine ⟨h1.step (i := .segment synAck) ⟨⟨fun _ h => ?_, fun _ => ⟨rfl, rfl⟩⟩, hin, rfl, rfl, rfl⟩, trivial,
    .connectok, [], by decide, rfl, .inl ⟨rfl, rfl⟩⟩
  exact h.2.2.2.2.1 ⟨rfl, rfl⟩

theorem connect_sound_synAck : ended.err = .none ∧ ended.sock.pcb.state = .established := by
  obtain ⟨hreach, hstep⟩ := ended_reach
  have hright := (connect_sound 5).2.2 replied ended .handle hreach hstep
  exact ⟨by decide, hright.returns (.inr ⟨rfl, by decide⟩) (by decide)⟩

/-- A call with its port taken succeeds at a closed socket; a bare acknowledgement establishes. -/
theorem connect_unsound : (((unbound [49152]).connect 5 .start .other (some ⟨0xc0a80001, 80⟩)).1 = .none ∧
      ((unbound [49152]).connect 5 .start .other (some ⟨0xc0a80001, 80⟩)).2.2.pcb.state = .closed) ∧
    called.sock.pcb.state = .synSent ∧
    ∃ s', called.sock.input (.plain 900 0x10001 { ack := true } [] (by decide)) = some s' ∧
      s'.pcb.state = .established ∧ ¬ called.sock.Opens (.plain 900 0x10001 { ack := true } [] (by decide)) s' := by
  refine ⟨⟨by decide, by decide⟩, by decide, _, input_eq _ _, by decide, fun h => ?_⟩
  obtain ⟨hans, -⟩ := h.established (by decide)
  exact absurd hans.1 (by decide)

end Sock
end Tcp
end Vsf
