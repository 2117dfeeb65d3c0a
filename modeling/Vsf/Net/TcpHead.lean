/-
# TCP connections: the headers of the segments sent

Every segment sent is built by `vsfip_add_tcphead` (`run_grows`). It should acknowledge `rseq` and
offer the window that is left. But the ACK flag is set only when `rseq` is not zero, and the window
is the low 16 bits of a 32-bit difference (`heads_iff`).
-/
import Mathlib
import Vsf.Net.TcpRuns

namespace Vsf
namespace Tcp

/-- The bytes in a queue. -/
def queuedBytes (q : List Buf) : ℕ := (q.map fun b => b.payload.length).sum

/-- What the header of a segment of a synchronised connection should be. -/
structure Sent.Right (e : Sent) : Prop where
  ack : e.head.flags.ack = true
  ackseq : e.head.ackseq = e.rseq
  windowSize : e.head.windowSize.toNat = min 65535 (e.rxWindow.toNat - queuedBytes e.inq)

/-- The header is right: an acknowledgement is asked for or `rseq` is not 0, and the window fits. Others may
still have the right low bits. -/
def Sent.Plain (e : Sent) : Prop :=
  (e.asked.ack ∨ e.rseq ≠ 0) ∧
  (queuedBytes e.inq ≤ e.rxWindow.toNat ∧
      (e.rxWindow.toNat - queuedBytes e.inq ≤ 65535 ∨ (e.rxWindow.toNat - queuedBytes e.inq) % 65536 = 65535) ∨
    e.rxWindow.toNat < queuedBytes e.inq ∧ (queuedBytes e.inq - e.rxWindow.toNat) % 65536 = 0)

instance (e : Sent) : Decidable e.Plain := inferInstanceAs (Decidable ((_ ∨ _) ∧ (_ ∧ (_ ∨ _) ∨ _ ∧ _)))

/-! ### The fields -/

theorem foldl_size : ∀ (q : List Buf) (n : UInt32),
    (q.foldl (fun size b => size + b.size) n).toNat = (n.toNat + queuedBytes q) % 2 ^ 32
  | [], n => by
    show n.toNat = (n.toNat + 0) % 2 ^ 32
    rw [add_zero, Nat.mod_eq_of_lt n.toNat_lt]
  | b :: q, n => by
    have hcons : queuedBytes (b :: q) = b.payload.length + queuedBytes q := rfl
    rw [List.foldl_cons, foldl_size q, UInt32.toNat_add, b.size_toNat, hcons, Nat.mod_add_mod, add_assoc]

theorem bufferlistLen_toNat (q : List Buf) : (bufferlistLen q).toNat = queuedBytes q % 2 ^ 32 := by
  rw [bufferlistLen, foldl_size, UInt32.toNat_zero, zero_add]

theorem toUInt16_sub_toNat (w l : UInt32) : (w - l).toUInt16.toNat = (2 ^ 32 - l.toNat + w.toNat) % 65536 := by
  rw [UInt32.toNat_toUInt16, UInt32.toNat_sub]
  omega

theorem window_iff (w : UInt32) (q : List Buf) :
    (w - bufferlistLen q).toUInt16.toNat = min 65535 (w.toNat - queuedBytes q) ↔
      queuedBytes q ≤ w.toNat ∧ (w.toNat - queuedBytes q ≤ 65535 ∨ (w.toNat - queuedBytes q) % 65536 = 65535) ∨
      w.toNat < queuedBytes q ∧ (queuedBytes q - w.toNat) % 65536 = 0 := by
  rw [toUInt16_sub_toNat, bufferlistLen_toNat]
  omega

theorem Sent.Made.plain_iff {e : Sent} (h : e.Made) : e.Right ↔ e.Plain := by
  have hack : e.head.flags.ack = true ↔ e.asked.ack = true ∨ e.rseq ≠ 0 := by
    rw [h.flags]
    simp
  have hwin := window_iff e.rxWindow e.inq
  rw [← h.windowSize] at hwin
  constructor
  · intro hr
    exact ⟨hack.mp hr.ack, hwin.mp hr.windowSize⟩
  · rintro ⟨h1, h2⟩
    exact ⟨hack.mpr h1, h.ackseq, hwin.mpr h2⟩

/-! ### What a connection sends -/

namespace Sock

/-- Segments are only added, each built by `vsfip_add_tcphead`. -/
def Grows (s s' : Sock) : Prop := ∃ es, s'.log.sent = s.log.sent ++ es ∧ ∀ e ∈ es, e.Made

variable {s s' s'' : Sock} {seg : Seg}

theorem Grows.of_eq (h : s'.log.sent = s.log.sent) : Grows s s' := ⟨[], by rw [h, List.append_nil], by simp⟩

theorem Grows.trans (h : Grows s s') (h' : Grows s' s'') : Grows s s'' := by
  obtain ⟨es, h1, h2⟩ := h
  obtain ⟨es', h3, h4⟩ := h'
  refine ⟨es ++ es', by rw [h3, h1, List.append_assoc], fun e he => ?_⟩
  rcases List.mem_append.mp he with he | he
  · exact h2 e he
  · exact h4 e he

theorem sendflags_grows (s : Sock) (f : Flags) : Grows s (s.sendflags f).2 := by
  obtain ⟨es, h1, h2⟩ := sendflags_sent s f
  exact ⟨es, h1, fun e he => (h2 e he).1⟩

theorem postTx_grows (s : Sock) (evt : Evt) : Grows s (s.postTx evt) := (postTx_reacts s evt).sent

theorem postRx_grows (s : Sock) (evt : Evt) : Grows s (s.postRx evt) := (postRx_reacts s evt).sent

theorem dataInput_grows (s : Sock) (seg : Seg) : Grows s (s.dataInput seg) := by
  unfold dataInput
  dsimp only
  split_ifs
  · exact (react_reacts (s.count seg)).sent
  · exact .of_eq rfl

theorem grows_kept (s : Sock) (seg : Seg) : Kept (Grows s ·) seg where
  drop _ h := h.trans (.of_eq rfl)
  look _ h := h.trans (.of_eq rfl)
  flags u f h _ := h.trans (sendflags_grows u f)
  postTx u evt h _ := h.trans (postTx_grows u evt)
  postRx u evt h _ := h.trans (postRx_grows u evt)
  discard _ h _ _ _ := h.trans (.of_eq rfl)
  fin u h _ _ _ _ := h.trans (sendflags_grows { u with pcb := { u.pcb with rclose := true, rseq := seg.seq + 1 } } _)
  finAcked _ h _ _ _ := h.trans (.of_eq rfl)
  finWait2 _ h _ := h.trans (.of_eq rfl)
  closed _ h _ := h.trans (.of_eq rfl)
  data u h _ _ _ := h.trans (dataInput_grows u seg)
  ack u h _ _ _ := h.trans (ackInput_keeps u seg.ackseq).sent

theorem reset_grows (s : Sock) (seg : Seg) : Grows s (reset seg s) := by
  unfold reset
  refine Grows.trans ?_ (postRx_grows _ _)
  refine Grows.trans ?_ (postTx_grows _ _)
  exact .of_eq rfl

theorem connected_grows (l : Frame) (s : Sock) (seg : Seg) : Grows s (connected l seg s) := by
  unfold connected
  refine Grows.trans ?_ (postTx_grows _ _)
  split_ifs <;> exact .of_eq rfl

theorem synSent_grows (l : Frame) (s : Sock) (seg : Seg) : Grows s (synSent l seg s) := by
  unfold synSent
  split_ifs
  · exact sendflags_grows { s with pcb := { s.pcb with rseq := seg.seq + 1, txRetry := 3 } } _
  · refine Grows.trans ?_ (connected_grows l _ seg)
    exact sendflags_grows { s with pcb := { s.pcb with
      txTimeoutMs := 0, rseq := seg.seq + 1, ackedLseq := s.pcb.lseq } } _
  · exact .of_eq rfl

theorem synGet_grows (l : Frame) (s : Sock) (seg : Seg) : Grows s (synGet l seg s) := by
  set u : Sock := ({ s with pcb := { s.pcb with
    txTimeoutMs := 0, ackedLseq := seg.ackseq, lseq := seg.ackseq } } : Sock).look
  have hu : Grows s u := .of_eq rfl
  unfold synGet
  dsimp only
  split_ifs
  · exact sendflags_grows { s with pcb := { s.pcb with lseq := s.pcb.ackedLseq, txRetry := 3 } } _
  · exact (hu.trans (dataInput_grows u seg)).trans (connected_grows _ _ seg)
  · exact (hu.trans (sendflags_grows u _)).trans (connected_grows l _ seg)
  · exact hu.trans (connected_grows l u seg)
  · exact sendflags_grows { s with pcb := { s.pcb with txRetry := 3 } } _
  · exact .of_eq rfl

theorem listen_grows (l : Frame) (s : Sock) (seg : Seg) : Grows s (listen l seg s) := by
  unfold listen
  split_ifs
  · cases s.stack.sockets with
    | zero => exact .of_eq rfl
    | succ n =>
      exact sendflags_grows { s with
        pcb := s.childPcb seg
        inq := []
        outq := []
        opts := { s.opts with onInput := false, onOutputted := false, father := true } } _
  · exact .of_eq rfl

theorem input_grows (h : s.input seg = some s') : Grows s s' := by
  refine input_kept (P := (Grows s ·)) (grows_kept s seg) (fun _ hu => hu.trans (.of_eq rfl))
    (fun _ u hu => hu.trans (reset_grows u seg)) ?_ (.of_eq rfl) h
  intro u hu hst
  refine hu.trans ?_
  unfold passes pass
  rcases hst with hst | hst | hst
  · rw [hst]
    exact listen_grows _ u seg
  · rw [hst]
    exact synSent_grows _ u seg
  · rw [hst]
    exact synGet_grows _ u seg

theorem act_grows {a : Act} (h : s.act a = some s') : Grows s s' := by
  cases a with
  | input seg => exact input_grows h
  | tick =>
    rw [← Option.some.inj h]
    exact Grows.trans (.of_eq rfl) (socketTick_ticked s.checkBuff).sent
  | call c => exact Option.some.inj h ▸ (exec_reacts s c).sent

/-- **Every segment sent in a run is built by `vsfip_add_tcphead`.** -/
theorem run_grows {as : List Act} (h : connection.Run s as s') : Grows s s' :=
  h.invariant (P := (Grows s ·)) (fun _ _ _ hu hst => hu.trans (act_grows hst)) (.of_eq rfl)

/-- **Which segments of a run have the right header.** -/
theorem heads_iff {as : List Act} (h : connection.Run s as s') : ∃ es, s'.log.sent = s.log.sent ++ es ∧
    ∀ e ∈ es, (e.Right ↔ e.Plain) := by
  obtain ⟨es, h1, h2⟩ := run_grows h
  exact ⟨es, h1, fun e he => (h2 e he).plain_iff⟩

/-- A connection with a receive window, for examples. -/
def asked (rseq rxWindow : UInt32) : Sock :=
  let s := opened 100 rseq
  { s with pcb := { s.pcb with rxWindow := rxWindow } }

/-- It receives two bytes and sends two. -/
def answered (rseq rxWindow : UInt32) : Sock :=
  let s := asked rseq rxWindow
  let s := (s.input (.plain rseq 100 { ack := true } [5, 6] (by decide))).getD s
  (s.asyncSend (.plain 7 [3, 4] (by decide))).2

theorem answered_run (rseq rxWindow : UInt32) : ∃ as, connection.Run (asked rseq rxWindow) as (answered rseq rxWindow) := by
  set seg : Seg := .plain rseq 100 { ack := true } [5, 6] (by decide)
  have hin : (asked rseq rxWindow).input seg = some (((asked rseq rxWindow).input seg).getD (asked rseq rxWindow)) := by
    rw [input_eq]
    rfl
  exact ⟨[.input seg, .call (.asyncSend (.plain 7 [3, 4] (by decide)))], .cons hin (.cons rfl (.nil _))⟩

theorem heads_iff_twoBytes : ∃ as, connection.Run (asked 700 5840) as (answered 700 5840) ∧
    (answered 700 5840).log.sent ≠ [] ∧ ∀ e ∈ (answered 700 5840).log.sent, e.Right := by
  obtain ⟨as, hrun⟩ := answered_run 700 5840
  obtain ⟨es, h1, h2⟩ := heads_iff hrun
  have hes : (answered 700 5840).log.sent = es := h1
  refine ⟨as, hrun, fun h => ?_, fun e he => (h2 e (hes ▸ he)).mpr ?_⟩
  · exact absurd (congrArg List.length h) (by decide)
  · have hplain : ∀ e ∈ (answered 700 5840).log.sent, e.Plain := by decide
    exact hplain e he

/-- With `rseq` at 0 data goes without ACK; after two bytes for a window of one, it is the largest. -/
theorem head_wrong :
    (∃ as, connection.Run (asked 0xfffffffe 5840) as (answered 0xfffffffe 5840) ∧
      (answered 0xfffffffe 5840).log.sent.length = 1 ∧
      ∀ e ∈ (answered 0xfffffffe 5840).log.sent, e.head.flags.ack = false ∧ ¬ e.Right) ∧
    (∃ as, connection.Run (asked 700 1) as (answered 700 1) ∧ (answered 700 1).log.sent.length = 1 ∧
      ∀ e ∈ (answered 700 1).log.sent, e.head.windowSize = 65535 ∧ ¬ e.Right) := by
  obtain ⟨as, hrun⟩ := answered_run 0xfffffffe 5840
  obtain ⟨as', hrun'⟩ := answered_run 700 1
  have hack : ∀ e ∈ (answered 0xfffffffe 5840).log.sent, e.head.flags.ack = false := by decide
  have hwin : ∀ e ∈ (answered 700 1).log.sent, e.head.windowSize = 65535 ∧ e.rxWindow = 1 ∧ queuedBytes e.inq = 2 := by
    decide
  refine ⟨⟨as, hrun, by decide, fun e he => ⟨hack e he, fun hr => ?_⟩⟩,
    ⟨as', hrun', by decide, fun e he => ⟨(hwin e he).1, fun hr => ?_⟩⟩⟩
  · exact absurd (hr.ack.symm.trans (hack e he)) (by decide)
  · obtain ⟨h1, h2, h3⟩ := hwin e he
    have hw := hr.windowSize
    rw [h1, h2, h3] at hw
    exact absurd hw (by decide)

end Sock
end Tcp
end Vsf
