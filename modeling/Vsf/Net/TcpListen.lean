/-
# TCP connections: listeners and their children

What segments and ticks do to a socket on which nobody has sent: the output queue stays empty, a
tick frees only a child that was never opened; and only a SYN at a listener with room makes a child.
-/
import Mathlib
import Vsf.Net.TcpConnect

namespace Vsf
namespace Tcp

open Ip

/-- A connection that is or was open. -/
def Stat.opened (st : Stat) : Prop := st = .established ∨ st = .closeWait ∨ st = .closed

namespace Sock

/-- Nothing was sent, nobody runs inside, and only unanswered flags repeat; `i` is if opened, `L` the
listener. -/
structure Calm (L : Listener) (i : Prop) (s : Sock) : Prop where
  env : s.env = []
  outq : s.outq = []
  freed : s.freed = false
  listener : s.listener = L
  timeout : s.pcb.state = .established ∨ s.pcb.state = .closeWait → s.pcb.txTimeoutMs = 0
  lclose : s.pcb.state = .finWait1 ∨ s.pcb.state = .finWait2 → s.pcb.lclose = true
  opened : i → s.pcb.state.opened ∧ s.pcb.txTimeoutMs = 0

variable {L : Listener} {i : Prop} {s s' : Sock} {seg : Seg}

theorem Calm.of_eq (h : Calm L i s) (he : s'.env = s.env) (hq : s'.outq = s.outq) (hf : s'.freed = s.freed)
    (hl : s'.listener = s.listener) (hst : s'.pcb.state = s.pcb.state) (ht : s'.pcb.txTimeoutMs = s.pcb.txTimeoutMs)
    (hc : s'.pcb.lclose = s.pcb.lclose) : Calm L i s' where
  env := he.trans h.env
  outq := hq.trans h.outq
  freed := hf.trans h.freed
  listener := hl.trans h.listener
  timeout := by rw [hst, ht]; exact h.timeout
  lclose := by rw [hst, hc]; exact h.lclose
  opened := by rw [hst, ht]; exact h.opened

theorem Calm.sendflags (h : Calm L i s) {f : Flags} (hf : f.syn = false) (hn : f.fin = false) :
    Calm L i (s.sendflags f).2 := by
  refine h.of_eq (by simp) (by simp) (by simp) (by simp) (by simp) ?_ (by simp)
  rw [sendflags_txTimeoutMs, if_neg (by simp [hf, hn])]

theorem Calm.postTx (h : Calm L i s) (evt : Evt) : Calm L i (s.postTx evt) := by
  obtain ⟨sm, new, heq, -⟩ := postTx_nil evt h.env
  rw [heq]
  exact h.of_eq rfl rfl rfl rfl rfl rfl rfl

theorem Calm.postRx (h : Calm L i s) (evt : Evt) : Calm L i (s.postRx evt) := by
  obtain ⟨sm, new, heq, -⟩ := postRx_nil evt h.env
  rw [heq]
  exact h.of_eq rfl rfl rfl rfl rfl rfl rfl

theorem Calm.dataInput (h : Calm L i s) (seg : Seg) : Calm L i (s.dataInput seg) := by
  unfold Sock.dataInput
  dsimp only
  split_ifs
  · rw [react_nil (s := s.count seg) h.env]
    exact h.of_eq rfl rfl rfl rfl rfl rfl rfl
  · exact h.of_eq rfl rfl rfl rfl rfl rfl rfl

theorem Calm.ackInput (h : Calm L i s) (a : UInt32) : Calm L i (s.ackInput a) := by
  have hloop : s.ackInput a = { s with pcb := { s.pcb with txTimeoutMs := 0, ackedLseq := a } } := by
    unfold Sock.ackInput ackLoop
    simp only [h.outq]
  rw [hloop]
  exact ⟨h.env, h.outq, h.freed, h.listener, fun _ => rfl, h.lclose, fun hi => ⟨(h.opened hi).1, rfl⟩⟩

theorem Calm.not_opened (h : Calm L i s) (hst : s.pcb.state = .finWait1 ∨ s.pcb.state = .finWait2 ∨
    s.pcb.state = .lastAck ∨ s.pcb.state = .listen ∨ s.pcb.state = .synSent ∨ s.pcb.state = .synGet) : ¬ i := by
  intro hi
  have hop := (h.opened hi).1
  unfold Stat.opened at hop
  rcases hst with hst | hst | hst | hst | hst | hst <;> rw [hst] at hop <;> simp at hop

theorem Calm.passiveClose (h : Calm L i s) (seg : Seg) (hst : s.pcb.state.synchronised)
    (hne : s.pcb.state ≠ .lastAck) : Calm L i (s.passiveClose seg) := by
  set u : Sock := { s with pcb := { s.pcb with rclose := true, rseq := seg.seq + 1 } }
  have hu : Calm L i u := h.of_eq rfl rfl rfl rfl rfl rfl rfl
  have hf : Calm L i (u.sendflags { ack := true }).2 := hu.sendflags rfl rfl
  have htime : (u.sendflags { ack := true }).2.pcb.lclose = false → (u.sendflags { ack := true }).2.pcb.txTimeoutMs = 0 := by
    intro hc
    have hc : s.pcb.lclose = false := by simpa [u] using hc
    rw [sendflags_txTimeoutMs, if_neg (by simp)]
    refine h.timeout ?_
    cases hs : s.pcb.state with
    | established => exact .inl rfl
    | closeWait => exact .inr rfl
    | finWait1 => rw [h.lclose (.inl hs)] at hc; cases hc
    | finWait2 => rw [h.lclose (.inr hs)] at hc; cases hc
    | lastAck => exact absurd hs hne
    | _ => rw [hs] at hst; cases hst
  unfold Sock.passiveClose
  dsimp only
  refine ⟨hf.env, hf.outq, hf.freed, hf.listener, fun hc => ?_, fun hc => ?_, fun hi => ⟨?_, (hf.opened hi).2⟩⟩
  · split_ifs at hc with hlc
    · simp at hc
    · exact htime (by simpa using hlc)
  · split_ifs at hc <;> simp at hc
  · dsimp only
    split_ifs
    · exact .inr (.inr rfl)
    · exact .inr (.inl rfl)

theorem calm_kept (L : Listener) (i : Prop) (seg : Seg) : Kept (Calm L i) seg where
  drop _ h := h.of_eq rfl rfl rfl rfl rfl rfl rfl
  look _ h := h.of_eq rfl rfl rfl rfl rfl rfl rfl
  flags _ _ h hf := by rcases hf with rfl | rfl <;> exact h.sendflags rfl rfl
  postTx _ evt h _ := h.postTx evt
  postRx _ evt h _ := h.postRx evt
  discard _ h _ _ _ := h.of_eq rfl rfl rfl rfl rfl rfl rfl
  fin _ h hst hne _ _ := h.passiveClose seg hst hne
  finAcked s h hst _ _ := by
    have hni : ¬ i := h.not_opened (hst.imp id fun hst => .inr (.inl hst))
    exact ⟨h.env, h.outq, h.freed, h.listener, fun _ => rfl, fun _ => rfl, fun hi => absurd hi hni⟩
  finWait2 s h hst :=
    ⟨h.env, h.outq, h.freed, h.listener, fun hc => by simp at hc, fun _ => h.lclose (.inl hst),
      fun hi => absurd hi (h.not_opened (.inl hst))⟩
  closed s h hst :=
    ⟨h.env, h.outq, h.freed, h.listener, fun hc => by simp at hc, fun hc => by simp at hc,
      fun hi => absurd hi (h.not_opened (.inr (.inr (.inl hst))))⟩
  data _ h _ _ _ := h.dataInput seg
  ack _ h _ _ _ := h.ackInput seg.ackseq

theorem Calm.connected (h : Calm L i s) (l : Frame) (seg : Seg) (ht : s.pcb.txTimeoutMs = 0) (hi : ¬ i) :
    Calm L i (connected l seg s) := by
  unfold Sock.connected
  set u : Sock := { s with pcb := { s.pcb with rclose := false, lclose := false, state := .established } }
  have hu : Calm L i u :=
    ⟨h.env, h.outq, h.freed, h.listener, fun _ => ht, fun hc => by simp [u] at hc, fun hi' => absurd hi' hi⟩
  refine Calm.postTx ?_ _
  split_ifs
  · exact hu.of_eq rfl rfl rfl rfl rfl rfl rfl
  · exact hu

/-- A SYN or FIN is sent in a state where it may be unanswered. -/
theorem Calm.flagged (h : Calm L i s) (f : Flags) (hi : ¬ i) {pcb : Pcb} (hst : ¬ (pcb.state = .established ∨ pcb.state = .closeWait))
    (hlc : pcb.state = .finWait1 ∨ pcb.state = .finWait2 → pcb.lclose = true) :
    Calm L i { (s.sendflags f).2 with pcb := pcb } :=
  ⟨by simpa using h.env, by simpa using h.outq, by simpa using h.freed, by simpa using h.listener,
    fun hc => absurd hc hst, hlc, fun hi' => absurd hi' hi⟩

theorem Calm.synSent (h : Calm L i s) (l : Frame) (seg : Seg) (hst : s.pcb.state = .synSent) :
    Calm L i (synSent l seg s) := by
  have hi : ¬ i := h.not_opened (.inr (.inr (.inr (.inr (.inl hst)))))
  unfold Sock.synSent
  split_ifs
  · set u : Sock := { s with pcb := { s.pcb with rseq := seg.seq + 1, txRetry := 3 } }
    have hu : Calm L i u := h.of_eq rfl rfl rfl rfl rfl rfl rfl
    exact (calm_kept L i seg).drop _ (hu.flagged _ hi (by simp) (by simp))
  · set u : Sock := { s with pcb := { s.pcb with txTimeoutMs := 0, rseq := seg.seq + 1, ackedLseq := s.pcb.lseq } }
    have hu : Calm L i u :=
      ⟨h.env, h.outq, h.freed, h.listener, fun _ => rfl, h.lclose, fun hi' => absurd hi' hi⟩
    refine (hu.sendflags (f := { ack := true }) rfl rfl).connected l seg ?_ hi
    rw [sendflags_txTimeoutMs, if_neg (by simp)]
  · exact (calm_kept L i seg).drop _ h

theorem Calm.synGet (h : Calm L i s) (l : Frame) (seg : Seg) (hst : s.pcb.state = .synGet) :
    Calm L i (synGet l seg s) := by
  have hi : ¬ i := h.not_opened (.inr (.inr (.inr (.inr (.inr hst)))))
  set u : Sock := ({ s with pcb := { s.pcb with
    txTimeoutMs := 0, ackedLseq := seg.ackseq, lseq := seg.ackseq } } : Sock).look with hudef
  have hu : Calm L i u :=
    ⟨h.env, h.outq, h.freed, h.listener, fun _ => rfl, h.lclose, fun hi' => absurd hi' hi⟩
  have hdata : (u.dataInput seg).pcb.txTimeoutMs = 0 := by
    unfold Sock.dataInput
    dsimp only
    split_ifs
    · rw [react_nil (s := u.count seg) hu.env]
      rfl
    · rfl
  unfold Sock.synGet
  dsimp only
  split_ifs
  · set v : Sock := { s with pcb := { s.pcb with lseq := s.pcb.ackedLseq, txRetry := 3 } }
    have hv : Calm L i v := h.of_eq rfl rfl rfl rfl rfl rfl rfl
    exact (calm_kept L i seg).drop _ (hv.flagged _ hi (by simp [v, hst]) (by simp [v, hst]))
  · exact (hu.dataInput seg).connected _ seg hdata hi
  · refine (hu.sendflags (f := { ack := true }) rfl rfl).connected l seg ?_ hi
    rw [sendflags_txTimeoutMs, if_neg (by simp)]
    rfl
  · exact hu.connected l seg rfl hi
  · set v : Sock := { s with pcb := { s.pcb with txRetry := 3 } }
    have hv : Calm L i v := h.of_eq rfl rfl rfl rfl rfl rfl rfl
    exact (calm_kept L i seg).drop _ (hv.flagged _ hi (by simp) (by simp))
  · exact (calm_kept L i seg).drop _ h

theorem Calm.reset (h : Calm L i s) (seg : Seg) : Calm L i (reset seg s) := by
  unfold Sock.reset
  refine Calm.postRx (Calm.postTx ?_ _) _
  exact ⟨h.env, rfl, h.freed, h.listener, fun hc => by simp at hc, fun hc => by simp at hc,
    fun _ => ⟨.inr (.inr rfl), rfl⟩⟩

/-! ### Segments -/

/-- A listener made a child for the sender of the segment. -/
structure Heard (s : Sock) (seg : Seg) (s' : Sock) : Prop where
  state : s.pcb.state = .listen
  room : s.listener.acceptedNum < s.listener.backlog
  closing : s.listener.closing = false
  sockets : s.stack.sockets ≠ 0
  child : ∃ pcb : Pcb, pcb.state = .synGet ∧ s'.listener = { s.listener with
    acceptedNum := s.listener.acceptedNum + 1
    children := ⟨seg.srcAddr, seg.srcPort, pcb⟩ :: s.listener.children }
  rest : s'.env = s.env ∧ s'.outq = s.outq ∧ s'.freed = s.freed ∧ s'.pcb = s.pcb

theorem listen_heard (l : Frame) (seg : Seg) (hst : s.pcb.state = .listen) :
    (∃ net log, listen l seg s = { s with net := net, log := log }) ∨ Heard s seg (listen l seg s) := by
  unfold listen
  split_ifs with h
  · cases hsock : s.stack.sockets with
    | zero => exact .inl ⟨_, _, rfl⟩
    | succ n =>
      refine .inr ⟨hst, h.2.1, h.2.2, by simp [hsock], ⟨_, ?_, rfl⟩, rfl, rfl, rfl, rfl⟩
      simp [childPcb]
  · exact .inl ⟨_, _, rfl⟩

/-- **A segment** keeps a socket calm, or makes a child of it. -/
theorem input_calm (h : Calm L i s) (hs : s.input seg = some s') :
    Calm L i s' ∨ ∃ rwnd : UInt32, Heard { s with pcb := { s.pcb with rwnd := rwnd } } seg s' := by
  set u : Sock := { s with pcb := { s.pcb with rwnd := seg.windowSize.toUInt32 } } with hudef
  have hu : Calm L i u := h.of_eq rfl rfl rfl rfl rfl rfl rfl
  have hkept := calm_kept L i seg
  rw [input_eq, Option.some.injEq] at hs
  rw [← hs]
  split_ifs with hb hr
  · exact .inl (hkept.drop s h)
  · exact .inl (hu.reset seg)
  · have hsync : u.pcb.state.synchronised ∨ u.pcb.state = .closed ∨ u.pcb.state = .invalid → Calm L i (u.passes seg) :=
      fun hst => passes_kept hkept hst hu
    cases hst : u.pcb.state with
    | listen =>
      unfold passes pass
      rw [hst]
      rcases listen_heard ⟨seg.flags, true, .listen⟩ seg hst with ⟨net, log, heq⟩ | hh
      · refine .inl ?_
        rw [heq]
        exact hu.of_eq rfl rfl rfl rfl rfl rfl rfl
      · exact .inr ⟨_, hh⟩
    | synSent =>
      unfold passes pass
      rw [hst]
      exact .inl (hu.synSent _ seg hst)
    | synGet =>
      unfold passes pass
      rw [hst]
      exact .inl (hu.synGet _ seg hst)
    | invalid => exact .inl (hsync (.inr (.inr hst)))
    | closed => exact .inl (hsync (.inr (.inl hst)))
    | established => exact .inl (hsync (.inl (by rw [hst]; rfl)))
    | finWait1 => exact .inl (hsync (.inl (by rw [hst]; rfl)))
    | finWait2 => exact .inl (hsync (.inl (by rw [hst]; rfl)))
    | closeWait => exact .inl (hsync (.inl (by rw [hst]; rfl)))
    | lastAck => exact .inl (hsync (.inl (by rw [hst]; rfl)))

/-! ### Ticks -/

/-- A SYN or FIN is only repeated, or given up, before the connection is open. -/
theorem tickTx_calm (h : Calm L i s) : Calm L i s.tickTx.1 ∨
    ¬ i ∧ s.opts.father = true ∧ ∃ pcb, s.tickTx = (closeChild { s with pcb := pcb }, false) := by
  by_cases h0 : s.pcb.txTimeoutMs > 0
  · have hni : ¬ i := fun hi => by
      rw [(h.opened hi).2] at h0
      exact absurd h0 (by decide)
    have hst : ¬ (s.pcb.state = .established ∨ s.pcb.state = .closeWait) := fun hc => by
      rw [h.timeout hc] at h0
      exact absurd h0 (by decide)
    have hset : ∀ t r : UInt32, Calm L i { s with pcb := { s.pcb with txTimeoutMs := t, txRetry := r } } := fun t r =>
      ⟨h.env, h.outq, h.freed, h.listener, fun hc => absurd hc hst, h.lclose, fun hi => absurd hi hni⟩
    unfold tickTx
    rw [if_pos h0]
    dsimp only
    split_ifs with h1 h2 h3
    · left
      unfold repeatFlags
      set u : Sock := { s with pcb := { s.pcb with
        txTimeoutMs := s.pcb.txTimeoutMs - 1, txRetry := s.pcb.txRetry - 1, lseq := s.pcb.ackedLseq } }
      have hu : Calm L i u := (hset (s.pcb.txTimeoutMs - 1) (s.pcb.txRetry - 1)).of_eq rfl rfl rfl rfl rfl rfl rfl
      exact hu.flagged _ hni (by simpa [u] using hst) (by simpa [u] using h.lclose)
    · exact .inr ⟨hni, h3.1, _, rfl⟩
    · left
      unfold giveUp
      set v : Sock := { s with pcb := { s.pcb with
        txTimeoutMs := s.pcb.txTimeoutMs - 1
        txRetry := s.pcb.txRetry - 1
        state := if s.pcb.state = Stat.synSent ∨ s.pcb.state = Stat.synGet ∨ s.pcb.state = Stat.lastAck then .closed
          else s.pcb.state } } with hv
      have hstate : v.pcb.state = .closed ∨ v.pcb.state = s.pcb.state := by
        rw [hv]
        split_ifs
        · exact .inl rfl
        · exact .inr rfl
      have hcalm : Calm L i v := by
        refine ⟨h.env, h.outq, h.freed, h.listener, fun hc => ?_, fun hc => ?_, fun hi => absurd hi hni⟩
        · rcases hstate with hcl | hcl <;> rw [hcl] at hc
          · simp at hc
          · exact absurd hc hst
        · rcases hstate with hcl | hcl <;> rw [hcl] at hc
          · simp at hc
          · exact h.lclose hc
      exact hcalm.postTx _
    · exact .inl (hset _ s.pcb.txRetry)
  · unfold tickTx
    rw [if_neg h0]
    exact .inl h

theorem tickRx_calm (h : Calm L i s) : Calm L i s.tickRx.1 := by
  have hset : Calm L i { s with pcb := { s.pcb with rxTimeoutMs := s.pcb.rxTimeoutMs - 1 } } :=
    h.of_eq rfl rfl rfl rfl rfl rfl rfl
  unfold tickRx
  dsimp only
  split_ifs
  · exact hset.postRx _
  · exact hset
  · exact h

theorem tickAck_calm (h : Calm L i s) : Calm L i s.tickAck := by
  have hset : Calm L i { s with pcb := { s.pcb with ackTick := s.pcb.ackTick - 1 } } :=
    h.of_eq rfl rfl rfl rfl rfl rfl rfl
  unfold tickAck
  dsimp only
  split_ifs
  · exact (hset.sendflags (f := { ack := true }) rfl rfl).of_eq rfl rfl rfl rfl rfl rfl rfl
  · exact hset
  · exact h

theorem tickRx_freed (s : Sock) (he : s.env = []) : s.tickRx.1.freed = s.freed ∧ s.tickRx.1.outq = s.outq := by
  unfold tickRx
  dsimp only
  split_ifs
  · obtain ⟨sm, new, heq, -⟩ := postRx_nil (s := { s with pcb := { s.pcb with rxTimeoutMs := s.pcb.rxTimeoutMs - 1 } })
      .timeout he
    rw [heq]
    exact ⟨rfl, rfl⟩
  · exact ⟨rfl, rfl⟩
  · exact ⟨rfl, rfl⟩

theorem tickAck_freed (s : Sock) : s.tickAck.freed = s.freed := by
  unfold tickAck
  dsimp only
  split_ifs <;> simp

/-- **A tick** keeps a socket calm, or frees a child that was never opened. -/
theorem tick_calm (h : Calm L i s) : (Calm L i s.tick ∧ s.tick.freed = false) ∨
    ¬ i ∧ s.opts.father = true ∧ s.tick.freed = true ∧ s.tick.listener = L := by
  set u : Sock := s.checkBuff with hudef
  have hu : Calm L i u := h.of_eq rfl rfl rfl rfl rfl rfl rfl
  have hticked := socketTick_ticked u
  unfold tick
  rcases tickTx_calm hu with htx | ⟨hni, hf, pcb, htx⟩
  · left
    have hrx := tickRx_calm htx
    have hres : Calm L i u.socketTick := by
      unfold socketTick
      dsimp only
      split_ifs
      · exact htx
      · exact hrx
      · rw [hrx.outq]
        exact hrx.of_eq rfl hrx.outq.symm rfl rfl rfl rfl rfl
      · rw [hrx.outq]
        exact tickAck_calm (hrx.of_eq rfl hrx.outq.symm rfl rfl rfl rfl rfl)
    exact ⟨hres, hres.freed⟩
  · right
    have hrx := tickRx_freed u.tickTx.1 (by rw [htx]; exact hu.env)
    have hfreed : u.tickTx.1.freed = true := by rw [htx]; rfl
    have houtq : u.tickTx.1.tickRx.1.outq = [] := by rw [hrx.2, htx]; rfl
    refine ⟨hni, hf, ?_, hticked.listener.trans hu.listener⟩
    unfold socketTick
    dsimp only
    split_ifs
    · exact hfreed
    · exact hrx.1.trans hfreed
    · rw [houtq]
      exact hrx.1.trans hfreed
    · rw [houtq, tickAck_freed]
      exact hrx.1.trans hfreed

end Sock
end Tcp
end Vsf
