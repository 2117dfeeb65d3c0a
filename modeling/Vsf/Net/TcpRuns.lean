/-
# TCP connections: whole runs

A segment comes in, a millisecond passes, the user calls: `connection` is that system. `Kept P seg`
lists the things `vsfip_tcp_socket_input` does in the synchronised states; what each of them keeps
the whole function keeps (`input_kept`). `Ticked` says what a tick leaves alone.
-/
import Mathlib
import Vsf.Lib.System
import Vsf.Net.TcpInput

namespace Vsf
namespace Tcp

open Ip List

/-- The synchronised states. -/
def Stat.synchronised : Stat → Bool
  | .established | .finWait1 | .finWait2 | .closeWait | .lastAck => true
  | _ => false

/-- What happens at a connection. -/
inductive Act
  | input (seg : Seg)
  | tick
  | call (c : Call)

/-- One step of a connection. -/
def Sock.act (s : Sock) : Act → Option Sock
  | .input seg => s.input seg
  | .tick => some s.tick
  | .call c => some (s.exec c)

/-- A connection from any socket on. -/
def connection : System Sock Act where
  start _ := True
  step s a s' := s.act a = some s'

/-- An established connection with nothing in its queues, for examples. -/
def Sock.opened (lseq rseq : UInt32) : Sock :=
  let cfg : Config := ⟨14, 5840, 5840⟩
  let s := Sock.new true cfg ⟨[], 49152, 0x10000, 3⟩ (.init (some .ethernet) [1, 2, 3, 4])
  { s with
    pcb := { s.pcb with
      state := .established, lseq := lseq, ackedLseq := lseq, rseq := rseq, ackedRseq := rseq
      rwnd := 5840, rclose := false, lclose := false }
    opts := { s.opts with txTimeoutMs := 200, rxTimeoutMs := 200 }
    localPort := 49152 }

/-- A segment in buffer 9, for examples. -/
def Seg.plain (seq ackseq : UInt32) (flags : Flags) (payload : List UInt8) (h : payload.length < 2 ^ 32) : Seg where
  seq := seq
  ackseq := ackseq
  flags := flags
  windowSize := 5840
  buf := .plain 9 payload h
  srcAddr := 0xc0a80001
  srcPort := 80

/-- The flags a pass sees: the FIN may have been handled. -/
structure Frame.Of (l : Frame) (seg : Seg) : Prop where
  fin : l.flags.fin → seg.flags.fin
  ack : l.flags.ack = seg.flags.ack

namespace Sock

/-! ### Segments -/

/-- What a property must survive of what follows a segment's data and acknowledgement. -/
structure KeptTail (P : Sock → Prop) (seg : Seg) : Prop where
  drop : ∀ s, P s → P (s.drop seg)
  look : ∀ s, P s → P s.look
  flags : ∀ s f, P s → f = { ack := true } ∨ f = { rst := true } → P (s.sendflags f).2
  postTx : ∀ s evt, P s → evt ≠ .connectok → P (s.postTx evt)
  postRx : ∀ s evt, P s → evt ≠ .connectok → P (s.postRx evt)
  discard : ∀ s, P s → s.pcb.state = .finWait1 ∨ s.pcb.state = .finWait2 → seg.buf.size > 0 →
    s.pcb.rseq = seg.seq → P (s.discard seg)
  fin : ∀ s, P s → s.pcb.state.synchronised → s.pcb.state ≠ .lastAck →
    (s.pcb.state = .finWait1 → seg.flags.ack ∧ seg.ackseq = s.pcb.lseq) → seg.flags.fin → P (s.passiveClose seg)
  finAcked : ∀ s, P s → s.pcb.state = .finWait1 ∨ s.pcb.state = .lastAck → seg.flags.ack →
    seg.ackseq = s.pcb.lseq → P s.finAcked
  finWait2 : ∀ s, P s → s.pcb.state = .finWait1 → P { s with pcb := { s.pcb with state := .finWait2 } }
  closed : ∀ s, P s → s.pcb.state = .lastAck → P { s with pcb := { s.pcb with state := .closed } }

/-- What a property must survive in the synchronised states, with what is known there. -/
structure Kept (P : Sock → Prop) (seg : Seg) : Prop extends KeptTail P seg where
  data : ∀ s, P s → s.pcb.state = .established → seg.buf.size > 0 → s.pcb.rseq = seg.seq → P (s.dataInput seg)
  ack : ∀ s, P s → s.pcb.state = .established ∨ s.pcb.state = .closeWait → seg.flags.ack →
    seg.ackseq ≠ s.pcb.ackedLseq → P (s.ackInput seg.ackseq)

variable {P : Sock → Prop} {l : Frame} {seg : Seg} {s s' : Sock}

theorem finish_kept (hP : KeptTail P seg) (hs : P s) : P (finish l seg s).1 := by
  unfold finish
  split_ifs
  · exact hP.drop s hs
  · exact hs

theorem remoteClose_kept (hP : KeptTail P seg) (hst : s.pcb.state.synchronised) (hne : s.pcb.state ≠ .lastAck)
    (h1 : s.pcb.state = .finWait1 → seg.flags.ack ∧ seg.ackseq = s.pcb.lseq) (hf : seg.flags.fin) (hs : P s) :
    P (remoteClose l seg s).1 := by
  have h2 : P ((s.passiveClose seg).postRx .rxfail) := hP.postRx _ _ (hP.fin s hs hst hne h1 hf) (by decide)
  unfold remoteClose
  dsimp only
  split_ifs
  · exact h2
  · exact finish_kept hP (hP.postTx _ _ h2 (by decide))
  · exact finish_kept hP h2

theorem finPart_kept (hP : KeptTail P seg) (hl : Frame.Of l seg) (hst : s.pcb.state = .established ∨ s.pcb.state = .closeWait)
    (hs : P s) : P (finPart l seg s).1 := by
  unfold finPart
  split_ifs with hf
  · refine remoteClose_kept hP ?_ ?_ ?_ (hl.fin hf) hs
    · rcases hst with h | h <;> rw [h] <;> rfl
    · rcases hst with h | h <;> rw [h] <;> decide
    · rcases hst with h | h <;> rw [h] <;> exact fun h => by cases h
  · exact finish_kept hP hs

theorem closeWait_kept (hP : Kept P seg) (hl : Frame.Of l seg) (hpre : l.pre = s.pcb.state)
    (hst : s.pcb.state = .established ∨ s.pcb.state = .closeWait) (hs : P s) : P (closeWait l seg s).1 := by
  unfold closeWait
  dsimp only
  split_ifs with ha hne
  · exact hP.postTx _ _ (hP.ack s hs hst (hl.ack ▸ ha.1) ha.2) (by decide)
  · have heq : ((s.ackInput seg.ackseq).postTx .txok).pcb.state = s.pcb.state := by
      rw [← hpre]
      simpa using hne
    refine finPart_kept hP.toKeptTail hl (by rw [heq]; exact hst) ?_
    exact hP.postTx _ _ (hP.ack s hs hst (hl.ack ▸ ha.1) ha.2) (by decide)
  · exact finPart_kept hP.toKeptTail hl hst hs

theorem established_kept (hP : Kept P seg) (hl : Frame.Of l seg) (hpre : l.pre = s.pcb.state)
    (hst : s.pcb.state = .established) (hs : P s) : P (established l seg s).1 := by
  have hlook : P s.look := hP.look s hs
  unfold established
  dsimp only
  split_ifs with hz hq hne
  · exact hP.postRx _ _ (hP.data _ hlook hst hz hq) (by decide)
  · have heq : ((s.look.dataInput seg).postRx .rxok).pcb.state = l.pre := by simpa using hne
    refine closeWait_kept hP ⟨hl.fin, hl.ack⟩ heq.symm (.inl ?_) (hP.postRx _ _ (hP.data _ hlook hst hz hq) (by decide))
    rw [heq, hpre, hst]
  · refine closeWait_kept hP hl ?_ (.inl ?_) (hP.flags _ _ hlook (.inl rfl))
    · rw [sendflags_state, look_pcb, hpre]
    · rw [sendflags_state, look_pcb, hst]
  · exact closeWait_kept hP hl hpre (.inl hst) hlook

theorem dataInFin_kept (hP : KeptTail P seg) (hst : s.pcb.state = .finWait1 ∨ s.pcb.state = .finWait2) (hs : P s) :
    P (dataInFin seg s) := by
  have hlook : P s.look := hP.look s hs
  unfold dataInFin
  apply hP.drop
  split_ifs with hz hq
  · exact hP.flags _ _ (hP.discard _ hlook hst hz hq) (.inl rfl)
  · exact hP.flags _ _ hlook (.inl rfl)
  · exact hlook

theorem finWait1_kept (hP : KeptTail P seg) (hl : Frame.Of l seg) (hst : s.pcb.state = .finWait1) (hs : P s) :
    P (finWait1 l seg s).1 := by
  unfold finWait1
  split_ifs with ha hf
  · have hack : P s.finAcked := hP.finAcked s hs (.inl hst) (hl.ack ▸ ha.1) ha.2
    refine remoteClose_kept hP ?_ ?_ (fun _ => ⟨hl.ack ▸ ha.1, ha.2⟩) (hl.fin hf) hack
    · rw [finAcked_state, hst]; rfl
    · rw [finAcked_state, hst]; decide
  · have hack : P s.finAcked := hP.finAcked s hs (.inl hst) (hl.ack ▸ ha.1) ha.2
    exact dataInFin_kept hP (.inr rfl) (hP.finWait2 _ hack hst)
  · exact dataInFin_kept hP (.inl hst) hs

theorem finWait2_kept (hP : KeptTail P seg) (hl : Frame.Of l seg) (hst : s.pcb.state = .finWait2) (hs : P s) :
    P (finWait2 l seg s).1 := by
  unfold finWait2
  split_ifs with hf
  · refine remoteClose_kept hP ?_ ?_ ?_ (hl.fin hf) hs
    · rw [hst]; rfl
    · rw [hst]; decide
    · rw [hst]; exact fun h => by cases h
  · exact dataInFin_kept hP (.inr hst) hs

theorem lastAck_kept (hP : KeptTail P seg) (hl : Frame.Of l seg) (hst : s.pcb.state = .lastAck) (hs : P s) :
    P (lastAck l seg s) := by
  have hflags : ∀ u : Sock, P u → u.pcb.state = .lastAck →
      P (if l.flags = { ack := true } ∧ seg.ackseq = u.pcb.lseq then
        (({ u.finAcked with pcb := { u.finAcked.pcb with state := .closed } } : Sock).drop seg).postTx .closed
        else u.drop seg) := by
    intro u hu hust
    split_ifs with ha
    · have hack : seg.flags.ack = true := by rw [← hl.ack, ha.1]
      exact hP.postTx _ _ (hP.drop _ (hP.closed _ (hP.finAcked u hu (.inr hust) hack ha.2) hust)) (by decide)
    · exact hP.drop _ hu
  unfold lastAck
  by_cases hf : l.flags.fin = true
  · rw [if_pos hf]
    exact hflags _ (hP.flags _ _ hs (.inl rfl)) (by rw [sendflags_state, hst])
  · rw [if_neg hf]
    exact hflags s hs hst

theorem pass_kept (hP : Kept P seg) (hl : Frame.Of l seg)
    (hpre : s.pcb.state = .established ∨ s.pcb.state = .closeWait → l.pre = s.pcb.state)
    (hst : s.pcb.state.synchronised ∨ s.pcb.state = .closed ∨ s.pcb.state = .invalid) (hs : P s) :
    P (pass l seg s).1 := by
  unfold pass
  cases h : s.pcb.state with
  | invalid => exact hP.drop s hs
  | closed => exact hP.drop _ (hP.flags s _ hs (.inr rfl))
  | listen => rw [h] at hst; simp [Stat.synchronised] at hst
  | synSent => rw [h] at hst; simp [Stat.synchronised] at hst
  | synGet => rw [h] at hst; simp [Stat.synchronised] at hst
  | established => exact established_kept hP hl (hpre (.inl h)) h hs
  | closeWait => exact closeWait_kept hP hl (hpre (.inr h)) (.inr h) hs
  | finWait1 => exact finWait1_kept hP.toKeptTail hl h hs
  | finWait2 => exact finWait2_kept hP.toKeptTail hl h hs
  | lastAck => exact lastAck_kept hP.toKeptTail hl h hs

theorem remoteClose_frame {l' : Frame} (h : remoteClose l seg s = (s', some l')) :
    l'.flags = { l.flags with fin := false } ∧ l'.release = l.release := by
  unfold remoteClose finish at h
  dsimp only at h
  split_ifs at h
  all_goals cases (Prod.mk.inj h).2
  exact ⟨rfl, rfl⟩

theorem finPart_frame {l' : Frame} (h : finPart l seg s = (s', some l')) :
    l'.flags = { l.flags with fin := false } ∧ l'.release = l.release := by
  unfold finPart at h
  split_ifs at h
  · exact remoteClose_frame h
  · cases (Prod.mk.inj h).2

theorem closeWait_frame {l' : Frame} (h : closeWait l seg s = (s', some l')) :
    (l'.flags = l.flags ∨ l'.flags = { l.flags with fin := false }) ∧ l'.release = l.release := by
  unfold closeWait at h
  dsimp only at h
  split_ifs at h
  · cases (Prod.mk.inj h).2
    exact ⟨.inl rfl, rfl⟩
  · exact ⟨.inr (finPart_frame h).1, (finPart_frame h).2⟩
  · exact ⟨.inr (finPart_frame h).1, (finPart_frame h).2⟩

theorem pass_frame {l' : Frame} (h : pass l seg s = (s', some l')) :
    l'.flags = l.flags ∨ l'.flags = { l.flags with fin := false } := by
  unfold pass at h
  split at h
  · cases (Prod.mk.inj h).2
  · cases (Prod.mk.inj h).2
  · cases (Prod.mk.inj h).2
  · cases (Prod.mk.inj h).2
  · cases (Prod.mk.inj h).2
  · unfold established at h
    dsimp only at h
    split_ifs at h
    · cases (Prod.mk.inj h).2
      exact .inl rfl
    · exact (closeWait_frame h).1
    · exact (closeWait_frame h).1
    · exact (closeWait_frame h).1
  · exact (closeWait_frame h).1
  · unfold finWait1 at h
    split_ifs at h
    · exact .inr (remoteClose_frame h).1
    · cases (Prod.mk.inj h).2
    · cases (Prod.mk.inj h).2
  · unfold finWait2 at h
    split_ifs at h
    · exact .inr (remoteClose_frame h).1
    · cases (Prod.mk.inj h).2
  · cases (Prod.mk.inj h).2

/-- **What each thing done to a segment keeps, the passes keep.** -/
theorem passes_kept (hP : Kept P seg) (hst : s.pcb.state.synchronised ∨ s.pcb.state = .closed ∨ s.pcb.state = .invalid)
    (hs : P s) : P (s.passes seg) := by
  have h1 : P (pass ⟨seg.flags, true, s.pcb.state⟩ seg s).1 := pass_kept hP ⟨id, rfl⟩ (fun _ => rfl) hst hs
  unfold passes
  cases hp : pass ⟨seg.flags, true, s.pcb.state⟩ seg s with
  | mk s1 o =>
    rw [hp] at h1
    cases o with
    | none => exact h1
    | some l1 =>
      have hc : s1.Closing := pass_again rfl hp
      have hl : Frame.Of l1 seg := by
        rcases pass_frame hp with h | h
        · exact ⟨by rw [h]; exact id, by rw [h]⟩
        · exact ⟨by simp [h], by rw [h]⟩
      refine pass_kept hP hl ?_ (.inl ?_) h1
      · rcases hc with h | h <;> rw [h] <;> rintro (h | h) <;> cases h
      · rcases hc with h | h <;> rw [h] <;> rfl

/-- **The rule for a segment**: also a RST, and what opening does. -/
theorem input_kept (hP : Kept P seg) (hrwnd : ∀ s, P s → P { s with pcb := { s.pcb with rwnd := seg.windowSize.toUInt32 } })
    (hrst : seg.flags.rst → ∀ s, P s → P (reset seg s))
    (hopen : ∀ s : Sock, P s → s.pcb.state = .listen ∨ s.pcb.state = .synSent ∨ s.pcb.state = .synGet →
      P (s.passes seg))
    (hs : P s) (h : s.input seg = some s') : P s' := by
  rw [input_eq, Option.some.injEq] at h
  rw [← h]
  split_ifs with hb hr
  · exact hP.drop s hs
  · exact hrst hr _ (hrwnd s hs)
  · set u : Sock := { s with pcb := { s.pcb with rwnd := seg.windowSize.toUInt32 } }
    have hu : P u := hrwnd s hs
    cases hst : u.pcb.state with
    | invalid => exact passes_kept hP (.inr (.inr hst)) hu
    | closed => exact passes_kept hP (.inr (.inl hst)) hu
    | listen => exact hopen u hu (.inl hst)
    | synSent => exact hopen u hu (.inr (.inl hst))
    | synGet => exact hopen u hu (.inr (.inr hst))
    | established => exact passes_kept hP (.inl (by rw [hst]; rfl)) hu
    | finWait1 => exact passes_kept hP (.inl (by rw [hst]; rfl)) hu
    | finWait2 => exact passes_kept hP (.inl (by rw [hst]; rfl)) hu
    | closeWait => exact passes_kept hP (.inl (by rw [hst]; rfl)) hu
    | lastAck => exact passes_kept hP (.inl (by rw [hst]; rfl)) hu

/-! ### Ticks -/

/-- What a tick does besides timers and the output queue: it may close a connection, or free it. -/
structure Ticked (s s' : Sock) : Prop where
  rseq : s'.pcb.rseq = s.pcb.rseq
  rclose : s'.pcb.rclose = s.pcb.rclose
  opts : s'.opts = s.opts
  listener : s'.listener = s.listener
  accepted : s'.log.accepted = s.log.accepted
  disposed : s'.log.disposed = s.log.disposed
  sent : ∃ es, s'.log.sent = s.log.sent ++ es ∧ ∀ e ∈ es, e.Made
  state : s'.pcb.state = s.pcb.state ∨ s'.pcb.state = .closed ∨
    s'.pcb.state = if s.pcb.rclose then .lastAck else .finWait1
  inq : s'.freed = true ∨
    s'.freed = s.freed ∧ ∃ q, s.inq = q ++ s'.inq ∧ s'.log.received = s.log.received ++ q

theorem Keeps.ticked (h : Keeps s s') : Ticked s s' := by
  refine ⟨h.rseq, h.rclose, h.opts, h.listener, h.accepted, h.disposed, h.sent, ?_, .inr ⟨h.freed, h.inq⟩⟩
  rcases h.state with h | ⟨-, h⟩
  · exact .inl h
  · exact .inr (.inr h)

theorem Ticked.refl (s : Sock) : Ticked s s := (Keeps.refl s).ticked

theorem Ticked.trans {s s' s'' : Sock} (h : Ticked s s') (h' : Ticked s' s'') : Ticked s s'' := by
  refine ⟨h'.rseq.trans h.rseq, h'.rclose.trans h.rclose, h'.opts.trans h.opts, h'.listener.trans h.listener,
    h'.accepted.trans h.accepted, h'.disposed.trans h.disposed, ?_, ?_, ?_⟩
  · obtain ⟨es, h1, h2⟩ := h.sent
    obtain ⟨es', h3, h4⟩ := h'.sent
    refine ⟨es ++ es', by rw [h3, h1, append_assoc], fun e he => ?_⟩
    rcases mem_append.mp he with he | he
    · exact h2 e he
    · exact h4 e he
  · rcases h'.state with hs | hs | hs
    · rw [hs]
      exact h.state
    · exact .inr (.inl hs)
    · rw [h.rclose] at hs
      exact .inr (.inr hs)
  · rcases h'.inq with hf | ⟨hf, q', h3, h4⟩
    · exact .inl hf
    · rcases h.inq with hf' | ⟨hf', q, h1, h2⟩
      · exact .inl (hf.trans hf')
      · exact .inr ⟨hf.trans hf', q ++ q', by rw [h1, h3, append_assoc], by rw [h4, h2, append_assoc]⟩

/-- Timers and sequence numbers of this side are not looked at. -/
theorem Ticked.of_eq (pcb : Pcb) (hpcb : s'.pcb = pcb) (hr : pcb.rseq = s.pcb.rseq) (hrc : pcb.rclose = s.pcb.rclose)
    (hst : pcb.state = s.pcb.state) (hi : s'.inq = s.inq) (hop : s'.opts = s.opts) (hli : s'.listener = s.listener)
    (hf : s'.freed = s.freed) (hl : s'.log = s.log) : Ticked s s' := by
  subst hpcb
  refine ⟨hr, hrc, hop, hli, by rw [hl], by rw [hl], ⟨[], by rw [hl, append_nil], by simp⟩, .inl hst,
    .inr ⟨hf, [], hi.symm, by rw [hl, append_nil]⟩⟩

theorem sendflags_ticked (s : Sock) (f : Flags) : Ticked s (s.sendflags f).2 := by
  obtain ⟨es, hes, hmade⟩ := sendflags_sent s f
  exact ⟨by simp, by simp, by simp, by simp, by simp, by simp, ⟨es, hes, fun e he => (hmade e he).1⟩, .inl (by simp),
    .inr ⟨by simp, [], by simp, by simp⟩⟩

theorem repeatFlags_ticked (s : Sock) : Ticked s s.repeatFlags := by
  unfold repeatFlags
  have hset : ∀ (u : Sock) (n : UInt32), Ticked u { u with pcb := { u.pcb with lseq := n } } :=
    fun u n => .of_eq { u.pcb with lseq := n } rfl rfl rfl rfl rfl rfl rfl rfl rfl
  exact (hset s _).trans ((sendflags_ticked _ _).trans (hset _ _))

theorem closeChild_ticked (s : Sock) : Ticked s s.closeChild :=
  ⟨rfl, rfl, rfl, rfl, rfl, rfl, ⟨[], (append_nil _).symm, by simp⟩, .inl rfl, .inl rfl⟩

theorem giveUp_ticked (s : Sock) : Ticked s s.giveUp := by
  unfold giveUp
  refine Ticked.trans ?_ (postTx_reacts _ _).toKeeps.ticked
  refine ⟨rfl, rfl, rfl, rfl, rfl, rfl, ⟨[], (append_nil _).symm, by simp⟩, ?_,
    .inr ⟨rfl, [], rfl, (append_nil _).symm⟩⟩
  by_cases h : s.pcb.state = Stat.synSent ∨ s.pcb.state = Stat.synGet ∨ s.pcb.state = Stat.lastAck
  · exact .inr (.inl (if_pos h))
  · exact .inl (if_neg h)

theorem tickTx_ticked (s : Sock) : Ticked s s.tickTx.1 := by
  have hset : ∀ t r : UInt32, Ticked s { s with pcb := { s.pcb with txTimeoutMs := t, txRetry := r } } :=
    fun t r => .of_eq { s.pcb with txTimeoutMs := t, txRetry := r } rfl rfl rfl rfl rfl rfl rfl rfl rfl
  unfold tickTx
  dsimp only
  split_ifs with h1 h2 h3 h4
  · exact (hset _ _).trans (repeatFlags_ticked _)
  · exact (hset _ _).trans (closeChild_ticked _)
  · exact (hset _ _).trans (giveUp_ticked _)
  · exact hset _ s.pcb.txRetry
  · exact .refl s

theorem tickRx_ticked (s : Sock) : Ticked s s.tickRx.1 := by
  have hset : Ticked s { s with pcb := { s.pcb with rxTimeoutMs := s.pcb.rxTimeoutMs - 1 } } :=
    .of_eq { s.pcb with rxTimeoutMs := s.pcb.rxTimeoutMs - 1 } rfl rfl rfl rfl rfl rfl rfl rfl rfl
  unfold tickRx
  dsimp only
  split_ifs
  · exact hset.trans (postRx_reacts _ _).toKeeps.ticked
  · exact hset
  · exact .refl s

theorem sendDo_ticked (s : Sock) (b : Buf) (f : Flags) : Ticked s (s.sendDo b f).2.2 := by
  rcases lt_or_ge b.room f.headlen with h | h
  · rw [sendDo_noRoom h]
    exact (release_reacts s b.id).toKeeps.ticked
  · rw [sendDo_sends h]
    refine ⟨rfl, rfl, rfl, rfl, rfl, rfl, ⟨[s.built b f], rfl, fun e he => ?_⟩, .inl rfl,
      .inr ⟨rfl, [], rfl, (append_nil _).symm⟩⟩
    rw [mem_singleton.mp he]
    exact built_made s b f

theorem resend_ticked (s : Sock) (b : Buf) : Ticked s (s.resend b).2 := by
  unfold resend
  set u : Sock := { s with pcb := { s.pcb with lseq := b.addr }, net := s.net.reference b.id }
  have h1 : Ticked s u := .of_eq { s.pcb with lseq := b.addr } rfl rfl rfl rfl rfl rfl rfl rfl rfl
  have h2 := sendDo_ticked u { b with ttl := s.opts.txTimeoutMs.toUInt16 } { psh := true }
  refine (h1.trans h2).trans ?_
  exact .of_eq { (u.sendDo { b with ttl := s.opts.txTimeoutMs.toUInt16 } { psh := true }).2.2.pcb with
    lseq := s.pcb.lseq } rfl rfl rfl rfl rfl rfl rfl rfl rfl

theorem flushOut_ticked (s : Sock) : Ticked s s.flushOut := by
  unfold flushOut
  set u : Sock := { s with
    net := s.net.freeList s.outq
    outq := []
    pcb := { s.pcb with lseq := s.pcb.ackedLseq, txRetry := 3 } }
  have h1 : Ticked s u := .of_eq { s.pcb with lseq := s.pcb.ackedLseq, txRetry := 3 } rfl rfl rfl rfl rfl rfl rfl rfl rfl
  refine ((h1.trans (sendflags_ticked u { fin := true })).trans ?_).trans (postTx_reacts _ _).toKeeps.ticked
  exact ⟨rfl, rfl, rfl, rfl, rfl, rfl, ⟨[], (append_nil _).symm, by simp⟩, .inr (.inr rfl),
    .inr ⟨rfl, [], rfl, (append_nil _).symm⟩⟩

theorem setOutq_ticked (s : Sock) (q : List Buf) : Ticked s { s with outq := q } :=
  .of_eq s.pcb rfl rfl rfl rfl rfl rfl rfl rfl rfl

theorem tickLoop_ticked : ∀ (rest done : List Buf) (s : Sock), Ticked s (tickLoop done rest s).1
  | [], done, s => setOutq_ticked s done
  | b :: rest, done, s => by
    unfold tickLoop
    dsimp only
    split_ifs
    · exact tickLoop_ticked rest _ s
    · exact (resend_ticked s _).trans (tickLoop_ticked rest _ _)
    · exact (setOutq_ticked s _).trans (flushOut_ticked _)
    · exact (resend_ticked s _).trans (tickLoop_ticked rest _ _)
    · exact (setOutq_ticked s _).trans (flushOut_ticked _)

theorem tickAck_ticked (s : Sock) : Ticked s s.tickAck := by
  have hset : ∀ (u : Sock) (n : UInt32), Ticked u { u with pcb := { u.pcb with ackTick := n } } :=
    fun u n => .of_eq { u.pcb with ackTick := n } rfl rfl rfl rfl rfl rfl rfl rfl rfl
  unfold tickAck
  dsimp only
  split_ifs
  · exact ((hset s _).trans (sendflags_ticked _ _)).trans (hset _ 10)
  · exact hset s _
  · exact .refl s

/-- **The rule for a tick.** -/
theorem socketTick_ticked (s : Sock) : Ticked s s.socketTick := by
  have h1 := tickTx_ticked s
  have h2 := h1.trans (tickRx_ticked s.tickTx.1)
  have h3 := h2.trans (tickLoop_ticked s.tickTx.1.tickRx.1.outq [] s.tickTx.1.tickRx.1)
  unfold socketTick
  dsimp only
  split_ifs
  · exact h1
  · exact h2
  · exact h3
  · exact h3.trans (tickAck_ticked _)

end Sock
end Tcp
end Vsf
