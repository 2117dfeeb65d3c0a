/-
# TCP connections: what is received

`pcb->rseq` follows the peer's stream: a segment with data moves it only when it starts there. A FIN
sets `rseq` wherever it starts, and without counting data that comes with it, so the stream is
followed exactly in the runs whose FINs come in order and alone (`Sock.FinOk`).
-/
import Mathlib
import Vsf.Net.TcpRuns

namespace Vsf
namespace Tcp

open List

/-- Payloads that follow one another, from one sequence number to another. -/
def Linked : UInt32 → List Accepted → UInt32 → Prop
  | n, [], m => n = m
  | n, e :: es, m => e.seq = n ∧ Linked (n + UInt32.ofNat e.payload.length) es m

theorem Linked.concat {n m : UInt32} {e : Accepted} (he : e.seq = m) :
    ∀ {es : List Accepted}, Linked n es m → Linked n (es ++ [e]) (m + UInt32.ofNat e.payload.length)
  | [], h => by
    have hnm : n = m := h
    subst hnm
    exact ⟨he, rfl⟩
  | _ :: _, h => ⟨h.1, Linked.concat he h.2⟩

namespace Sock

/-- `rseq` moves only with a segment that starts there, over its payload and FIN. -/
structure InOrder (s : Sock) (seg : Seg) (s' : Sock) : Prop where
  rseq : s'.pcb.rseq = s.pcb.rseq ∨
    seg.seq = s.pcb.rseq ∧ s'.pcb.rseq = s.pcb.rseq + seg.buf.size + if seg.flags.fin then 1 else 0
  other : seg.seq ≠ s.pcb.rseq → s'.pcb.rseq = s.pcb.rseq ∧ s'.pcb.rclose = s.pcb.rclose

/-- The states after the peer's FIN. -/
def Late (s : Sock) : Prop := s.pcb.state = .closeWait ∨ s.pcb.state = .lastAck ∨ s.pcb.state = .closed

/-- A synchronised connection, or one that was closed. -/
structure Synced (s : Sock) : Prop where
  state : s.pcb.state.synchronised ∨ s.pcb.state = .closed
  rclose : s.pcb.state = .closeWait ∨ s.pcb.state = .lastAck → s.pcb.rclose = true

/-- What was received since `s₀` follows `rseq`: what was handed over first; after a local close none. -/
def Follows (s₀ s : Sock) : Prop := ∃ given dropped m,
  s.log.accepted = s₀.log.accepted ++ (given ++ dropped) ∧
  Linked s₀.pcb.rseq (given ++ dropped) m ∧ (s.pcb.rseq = m ∨ s.pcb.rclose = true ∧ s.Late) ∧
  (∀ e ∈ given, e.delivered = true) ∧ (∀ e ∈ dropped, e.delivered = false) ∧
  (s.pcb.state = .established → dropped = [])

/-- A FIN handled is in order and alone, or the last again; in `LASTACK`, and unacknowledged `FINWAIT1`,
none is. -/
def FinOk (s : Sock) (seg : Seg) : Prop := seg.flags.fin → seg.flags.rst ∨
  s.pcb.state = .lastAck ∨ s.pcb.state = .closed ∨
  (seg.seq = s.pcb.rseq ∧ seg.buf.payload = []) ∨
  (s.pcb.rclose = true ∧ seg.seq + 1 = s.pcb.rseq) ∨
  (s.pcb.state = .finWait1 ∧ ¬ (seg.flags.ack ∧ seg.ackseq = s.pcb.lseq) ∧
    (seg.buf.payload = [] ∨ seg.seq ≠ s.pcb.rseq))

/-! ### One segment -/

/-- What has become of `rseq` while a segment is handled. -/
inductive Effect (s : Sock) (seg : Seg) (t : Sock) : Prop
  | nothing (rseq : t.pcb.rseq = s.pcb.rseq) (rclose : t.pcb.rclose = s.pcb.rclose)
      (accepted : t.log.accepted = s.log.accepted)
  | data (d : Bool) (seq : seg.seq = s.pcb.rseq) (size : seg.buf.size > 0) (fin : seg.flags.fin = false)
      (rseq : t.pcb.rseq = s.pcb.rseq + seg.buf.size) (rclose : t.pcb.rclose = s.pcb.rclose)
      (accepted : t.log.accepted = s.log.accepted ++ [⟨seg.seq, seg.buf.payload, d⟩])
      (late : ¬ s.Late) (given : d = true → s.pcb.state = .established)
      (dropped : d = false → t.pcb.state ≠ .established)
  | fin (seq : seg.seq = s.pcb.rseq) (payload : seg.buf.payload = []) (fin : seg.flags.fin = true)
      (rseq : t.pcb.rseq = s.pcb.rseq + 1) (rclose : t.pcb.rclose = true)
      (accepted : t.log.accepted = s.log.accepted) (late : t.Late)

/-- The invariant while a segment is handled. -/
structure Took (s : Sock) (seg : Seg) (t : Sock) : Prop where
  synced : Synced t
  est : t.pcb.state = .established → s.pcb.state = .established
  late : s.pcb.rclose = true → s.Late → t.Late
  lastAck : s.pcb.state = .lastAck → t.pcb.state ≠ .closeWait
  effect : Effect s seg t

variable {s t t' : Sock} {seg : Seg}

theorem Late.ne (h : t.Late) : t.pcb.state ≠ .established ∧ t.pcb.state ≠ .finWait1 ∧ t.pcb.state ≠ .finWait2 := by
  rcases h with h | h | h <;> rw [h] <;> decide

theorem Effect.rclose_mono (h : Effect s seg t) (hs : s.pcb.rclose = true) : t.pcb.rclose = true := by
  cases h with
  | nothing _ hr => rw [hr, hs]
  | data _ _ _ _ _ hr => rw [hr, hs]
  | fin _ _ _ _ hr => exact hr

theorem Late.of_state (h : t.Late) (heq : t'.pcb.state = t.pcb.state) : t'.Late := by
  unfold Late
  rw [heq]
  exact h

theorem Effect.congr (h : Effect s seg t) (hr : t'.pcb.rseq = t.pcb.rseq) (hrc : t'.pcb.rclose = t.pcb.rclose)
    (hacc : t'.log.accepted = t.log.accepted) (hest : t'.pcb.state = .established → t.pcb.state = .established)
    (hlate : t.pcb.rclose = true → t.Late → t'.Late) : Effect s seg t' := by
  cases h with
  | nothing h1 h2 h3 => exact .nothing (hr.trans h1) (hrc.trans h2) (hacc.trans h3)
  | data d h1 h2 h3 h4 h5 h6 h7 h8 h9 =>
    exact .data d h1 h2 h3 (hr.trans h4) (hrc.trans h5) (hacc.trans h6) h7 h8 fun hd h => h9 hd (hest h)
  | fin h1 h2 h3 h4 h5 h6 h7 => exact .fin h1 h2 h3 (hr.trans h4) (hrc.trans h5) (hacc.trans h6) (hlate h5 h7)

/-- While the user's code runs only the state changes, by a close. -/
theorem Took.stays (h : Took s seg t) (hr : t'.pcb.rseq = t.pcb.rseq)
    (hrc : t'.pcb.rclose = t.pcb.rclose) (hacc : t'.log.accepted = t.log.accepted)
    (hst : t'.pcb.state = t.pcb.state ∨ t'.pcb.state = if t.pcb.rclose then .lastAck else .finWait1) :
    Took s seg t' := by
  rcases hst with hst | hst
  · refine ⟨⟨by rw [hst]; exact h.synced.state, by rw [hst, hrc]; exact h.synced.rclose⟩, ?_, ?_, ?_, ?_⟩
    · rw [hst]
      exact h.est
    · exact fun h1 h2 => (h.late h1 h2).of_state hst
    · rw [hst]
      exact h.lastAck
    · exact h.effect.congr hr hrc hacc (by rw [hst]; exact id) fun _ hl => hl.of_state hst
  · cases hc : t.pcb.rclose with
    | true =>
      rw [hc, if_pos rfl] at hst
      have hlate : t'.Late := .inr (.inl hst)
      refine ⟨⟨.inl (by rw [hst]; rfl), fun _ => by rw [hrc, hc]⟩, ?_, fun _ _ => hlate, ?_, ?_⟩
      · rw [hst]
        exact fun h => by cases h
      · rw [hst]
        exact fun _ h => by cases h
      · exact h.effect.congr hr hrc hacc (fun h => absurd h hlate.ne.1) fun _ _ => hlate
    | false =>
      rw [hc] at hst
      have hst : t'.pcb.state = .finWait1 := hst
      refine ⟨⟨.inl (by rw [hst]; rfl), ?_⟩, ?_, ?_, ?_, ?_⟩
      · rw [hst]
        rintro (h | h) <;> cases h
      · rw [hst]
        exact fun h => by cases h
      · intro h1 _
        rw [h.effect.rclose_mono h1] at hc
        cases hc
      · rw [hst]
        exact fun _ h => by cases h
      · refine h.effect.congr hr hrc hacc ?_ fun h1 _ => ?_
        · rw [hst]
          exact fun h => by cases h
        · rw [hc] at h1
          cases h1

theorem Took.keeps (h : Took s seg t) (hk : Keeps t t') : Took s seg t' := by
  refine h.stays hk.rseq hk.rclose hk.accepted ?_
  rcases hk.state with h | ⟨-, h⟩
  · exact .inl h
  · exact .inr h

/-- Nothing in order can be left to do after data or FIN was taken. -/
theorem Effect.of_rseq (h : Effect s seg t) (hl : ¬ t.Late) (hz : seg.buf.size > 0) (hq : t.pcb.rseq = seg.seq) :
    t.pcb.rseq = s.pcb.rseq ∧ t.pcb.rclose = s.pcb.rclose ∧ t.log.accepted = s.log.accepted := by
  cases h with
  | nothing h1 h2 h3 => exact ⟨h1, h2, h3⟩
  | data d h1 _ _ h4 =>
    exfalso
    have h0 : s.pcb.rseq + seg.buf.size = s.pcb.rseq := by rw [← h4, hq, h1]
    have hzero : seg.buf.size = 0 := by simpa using h0
    rw [hzero] at hz
    exact absurd hz (by decide)
  | fin _ _ _ _ _ _ h7 => exact absurd h7 hl

theorem FinOk.noFin (h : FinOk s seg) (hrst : seg.flags.rst = false) (hl : ¬ s.Late) (hz : seg.buf.size > 0)
    (hq : seg.seq = s.pcb.rseq) : seg.flags.fin = false := by
  by_contra hf
  have hp := (Buf.size_pos_iff _).mp hz
  rcases h (by simpa using hf) with h | h | h | ⟨-, h⟩ | ⟨-, h⟩ | ⟨-, -, h | h⟩
  · rw [hrst] at h
    cases h
  · exact hl (.inr (.inl h))
  · exact hl (.inr (.inr h))
  · exact hp h
  · rw [hq] at h
    simp at h
  · exact hp h
  · exact h hq

theorem Took.refl (hs : Synced s) : Took s seg s :=
  ⟨hs, id, fun _ h => h, fun h => by rw [h]; decide, .nothing rfl rfl rfl⟩

theorem Took.flags (h : Took s seg t) (f : Flags) : Took s seg (t.sendflags f).2 :=
  h.stays (by simp) (by simp) (by simp) (.inl (by simp))

theorem Took.not_late (h : Took s seg t) (hs : Synced s) (hc : s.pcb.state ≠ .closed) (hl : ¬ t.Late) : ¬ s.Late := by
  rintro (hst | hst | hst)
  · exact hl (h.late (hs.rclose (.inl hst)) (.inl hst))
  · exact hl (h.late (hs.rclose (.inr hst)) (.inr (.inl hst)))
  · exact hc hst

theorem Took.count (h : Took s seg t) (hst : t.pcb.state = .established) (hz : seg.buf.size > 0)
    (hq : t.pcb.rseq = seg.seq) (hfin : ¬ s.Late → seg.seq = s.pcb.rseq → seg.flags.fin = false) :
    Took s seg (t.count seg) := by
  have hl : ¬ t.Late := fun hl => hl.ne.1 hst
  obtain ⟨h1, h2, h3⟩ := h.effect.of_rseq hl hz hq
  have hsl : ¬ s.Late := fun hl => hl.ne.1 (h.est hst)
  refine ⟨⟨h.synced.state, h.synced.rclose⟩, h.est, h.late, h.lastAck, ?_⟩
  refine .data true (hq.symm.trans h1) hz (hfin hsl (hq.symm.trans h1)) ?_ h2 ?_ hsl (fun _ => h.est hst)
    fun hd => by cases hd
  · show t.pcb.rseq + seg.buf.size = _
    rw [h1]
  · show t.log.accepted ++ _ = _
    rw [h3]

theorem Took.discard (h : Took s seg t) (hs : Synced s) (hc : s.pcb.state ≠ .closed)
    (hst : t.pcb.state = .finWait1 ∨ t.pcb.state = .finWait2) (hz : seg.buf.size > 0) (hq : t.pcb.rseq = seg.seq)
    (hfin : ¬ s.Late → seg.seq = s.pcb.rseq → seg.flags.fin = false) : Took s seg (t.discard seg) := by
  have hl : ¬ t.Late := fun hl => by
    rcases hst with hst | hst
    · exact hl.ne.2.1 hst
    · exact hl.ne.2.2 hst
  obtain ⟨h1, h2, h3⟩ := h.effect.of_rseq hl hz hq
  have hsl : ¬ s.Late := h.not_late hs hc hl
  refine ⟨⟨h.synced.state, h.synced.rclose⟩, h.est, h.late, h.lastAck, ?_⟩
  refine .data false (hq.symm.trans h1) hz (hfin hsl (hq.symm.trans h1)) ?_ h2 ?_ hsl (fun hd => by cases hd) fun _ => ?_
  · show t.pcb.rseq + seg.buf.size = _
    rw [h1]
  · show t.log.accepted ++ _ = _
    rw [h3]
  · show t.pcb.state ≠ _
    rcases hst with hst | hst <;> rw [hst] <;> decide

/-- No data was taken from a segment with a FIN. -/
theorem Effect.accepted_of_fin (h : Effect s seg t) (hf : seg.flags.fin = true) : t.log.accepted = s.log.accepted := by
  cases h with
  | nothing _ _ h3 => exact h3
  | data _ _ _ h3 =>
    rw [hf] at h3
    cases h3
  | fin _ _ _ _ _ h6 => exact h6

/-- A FIN that is handled was the next thing to come, or the last one again. -/
theorem Took.passiveClose (h : Took s seg t) (hs : Synced s) (hst : t.pcb.state.synchronised)
    (hla : t.pcb.state ≠ .lastAck) (hf : seg.flags.fin = true)
    (hok : s.pcb.state = .lastAck ∨ (seg.seq = s.pcb.rseq ∧ seg.buf.payload = []) ∨
      (s.pcb.rclose = true ∧ seg.seq + 1 = s.pcb.rseq)) : Took s seg (t.passiveClose seg) := by
  have hnla : s.pcb.state ≠ .lastAck := by
    intro hsla
    rcases h.late (hs.rclose (.inr hsla)) (.inr (.inl hsla)) with hl | hl | hl
    · exact h.lastAck hsla hl
    · exact hla hl
    · rw [hl] at hst
      cases hst
  have hstate := passiveClose_state seg t
  have hlate : (t.passiveClose seg).Late := by
    unfold Late
    rw [hstate]
    split_ifs
    · exact .inr (.inr rfl)
    · exact .inl rfl
  have hrseq : (t.passiveClose seg).pcb.rseq = seg.seq + 1 := by simp [Sock.passiveClose]
  have hacc : (t.passiveClose seg).log.accepted = s.log.accepted := by
    rw [← h.effect.accepted_of_fin hf]
    simp [Sock.passiveClose]
  refine ⟨⟨?_, fun _ => by simp⟩, fun h => absurd h hlate.ne.1, fun _ _ => hlate, fun hsla => absurd hsla hnla, ?_⟩
  · rw [hstate]
    split_ifs
    · exact .inr rfl
    · exact .inl rfl
  · rcases hok with hok | ⟨h1, h2⟩ | ⟨h1, h2⟩
    · exact absurd hok hnla
    · exact .fin h1 h2 hf (by rw [hrseq, h1]) (by simp) hacc hlate
    · exact .nothing (by rw [hrseq, h2]) (by rw [h1]; simp) hacc

/-- **What a segment without RST does keeps to the stream**, where not closed and, in `FINWAIT1`,
acknowledging our FIN. -/
theorem took_kept (hs : Synced s) (hc : s.pcb.state ≠ .closed) (hrst : seg.flags.rst = false) (hok : FinOk s seg)
    (hm : s.pcb.state = .finWait1 → seg.flags.ack ∧ seg.ackseq = s.pcb.lseq) : Kept (Took s seg) seg where
  drop t h := h.stays rfl rfl rfl (.inl rfl)
  look t h := h.stays rfl rfl rfl (.inl rfl)
  flags t f h _ := h.flags f
  postTx t evt h _ := h.keeps (postTx_reacts t evt).toKeeps
  postRx t evt h _ := h.keeps (postRx_reacts t evt).toKeeps
  data t h hst hz hq := by
    have hcount : Took s seg (t.count seg) := h.count hst hz hq fun hl h => hok.noFin hrst hl hz h
    unfold dataInput
    dsimp only
    split_ifs
    · exact hcount.keeps (react_reacts _).toKeeps
    · exact hcount.stays rfl rfl rfl (.inl rfl)
  discard t h hst hz hq := h.discard hs hc hst hz hq fun hl h => hok.noFin hrst hl hz h
  ack t h _ _ _ := h.keeps (ackInput_keeps t _)
  fin t h hst hla hm' hf := by
    refine h.passiveClose hs hst hla hf ?_
    rcases hok hf with h | h | h | h | h | ⟨h1, h2, -⟩
    · rw [hrst] at h
      cases h
    · exact .inl h
    · exact absurd h hc
    · exact .inr (.inl h)
    · exact .inr (.inr h)
    · exact absurd (hm h1) h2
  finAcked t h _ _ _ := h.stays rfl rfl rfl (.inl rfl)
  finWait2 t h hst := by
    have hl : ¬ t.Late := fun hl => hl.ne.2.1 hst
    refine ⟨⟨.inl rfl, ?_⟩, fun h => (by cases h), fun h1 h2 => absurd (h.late h1 h2) hl, fun _ h => (by cases h), ?_⟩
    · rintro (h | h) <;> cases h
    · exact h.effect.congr rfl rfl rfl (fun h => by cases h) fun _ h => absurd h hl
  closed t h _ := by
    refine ⟨⟨.inr rfl, ?_⟩, fun h => (by cases h), fun _ _ => .inr (.inr rfl), fun _ h => (by cases h), ?_⟩
    · rintro (h | h) <;> cases h
    · exact h.effect.congr rfl rfl rfl (fun h => by cases h) fun _ _ => .inr (.inr rfl)

theorem reset_took (h : Took s seg t) : Took s seg (reset seg t) := by
  have hclosed : Took s seg { (t.drop seg) with
      pcb := { t.pcb with txTimeoutMs := 0, rxTimeoutMs := 0, state := .closed }
      net := ((t.drop seg).net.freeList t.inq).freeList t.outq
      inq := []
      outq := [] } := by
    refine ⟨⟨.inr rfl, ?_⟩, fun h => (by cases h), fun _ _ => .inr (.inr rfl), fun _ h => (by cases h), ?_⟩
    · rintro (h | h) <;> cases h
    · exact h.effect.congr rfl rfl rfl (fun h => by cases h) fun _ _ => .inr (.inr rfl)
  exact (hclosed.keeps (postTx_reacts _ .timeout).toKeeps).keeps (postRx_reacts _ .timeout).toKeeps

/-- In `FINWAIT1` without the awaited acknowledgement only data is looked at. -/
theorem dataInFin_took (h : Took s seg t) (hs : Synced s) (hst : t.pcb.state = .finWait1) (hc : s.pcb.state ≠ .closed)
    (hfin : seg.buf.size > 0 → ¬ s.Late → seg.seq = s.pcb.rseq → seg.flags.fin = false) :
    Took s seg (dataInFin seg t) := by
  have hlook : Took s seg t.look := h.stays rfl rfl rfl (.inl rfl)
  have hdrop : ∀ u : Sock, Took s seg u → Took s seg (u.drop seg) := fun u h => h.stays rfl rfl rfl (.inl rfl)
  unfold dataInFin
  apply hdrop
  split_ifs with hz hq
  · exact (hlook.discard hs hc (.inl hst) hz hq (hfin hz)).flags _
  · exact hlook.flags _
  · exact hlook

theorem passes_took (h : Took s seg t) (hs : Synced s) (hrst : seg.flags.rst = false) (hok : FinOk s seg)
    (hst : t.pcb.state = s.pcb.state) (hseq : t.pcb.lseq = s.pcb.lseq) : Took s seg (t.passes seg) := by
  by_cases hc : s.pcb.state = .closed
  · have hpass : t.passes seg = (t.sendflags { rst := true }).2.drop seg := by
      simp [passes, pass, hst, hc]
    rw [hpass]
    exact (h.flags _).stays rfl rfl rfl (.inl rfl)
  by_cases hm : s.pcb.state = .finWait1 → seg.flags.ack ∧ seg.ackseq = s.pcb.lseq
  · refine passes_kept (took_kept hs hc hrst hok hm) ?_ h
    rw [hst]
    rcases hs.state with h | h
    · exact .inl h
    · exact .inr (.inl h)
  · obtain ⟨h1, h2⟩ := Classical.not_imp.mp hm
    have hpass : t.passes seg = dataInFin seg t := by
      simp only [passes, pass, hst, h1, finWait1, hseq]
      rw [if_neg h2]
    rw [hpass]
    exact dataInFin_took h hs (hst.trans h1) hc fun hz hl hq => hok.noFin hrst hl hz hq

/-- **What one segment does to `rseq`.** -/
theorem input_took (hs : Synced s) (hok : FinOk s seg) (h : s.input seg = some t) : Took s seg t := by
  have hu : Took s seg { s with pcb := { s.pcb with rwnd := seg.windowSize.toUInt32 } } :=
    (Took.refl hs).stays rfl rfl rfl (.inl rfl)
  rw [input_eq, Option.some.injEq] at h
  rw [← h]
  split_ifs with hb hr
  · exact (Took.refl hs).stays rfl rfl rfl (.inl rfl)
  · exact reset_took hu
  · exact passes_took hu hs (by simpa using hr) hok rfl rfl

theorem Took.inOrder (h : Took s seg t) : InOrder s seg t := by
  cases h.effect with
  | nothing h1 h2 _ => exact ⟨.inl h1, fun _ => ⟨h1, h2⟩⟩
  | data d h1 _ h3 h4 h5 =>
    refine ⟨.inr ⟨h1, ?_⟩, fun hne => absurd h1 hne⟩
    rw [h4, h3]
    simp
  | fin h1 h2 h3 h4 =>
    refine ⟨.inr ⟨h1, ?_⟩, fun hne => absurd h1 hne⟩
    have hz : seg.buf.size = 0 := by rw [Buf.size, h2]; rfl
    rw [h4, h3, hz]
    simp

/-! ### Whole runs -/

/-- The steps of a run in which every FIN is in order. -/
def FinsOk (s : Sock) : Act → Prop
  | .input seg => FinOk s seg
  | _ => True

theorem Follows.refl (s : Sock) : Follows s s :=
  ⟨[], [], s.pcb.rseq, by simp, rfl, .inl rfl, by simp, by simp, fun _ => rfl⟩

variable {s₀ : Sock}

theorem Follows.congr (h : Follows s₀ s) (hr : t.pcb.rseq = s.pcb.rseq) (hrc : t.pcb.rclose = s.pcb.rclose)
    (hacc : t.log.accepted = s.log.accepted) (hest : t.pcb.state = .established → s.pcb.state = .established)
    (hlate : s.pcb.rclose = true → s.Late → t.Late) : Follows s₀ t := by
  obtain ⟨given, dropped, m, h1, h2, h3, h4, h5, h6⟩ := h
  refine ⟨given, dropped, m, hacc.trans h1, h2, ?_, h4, h5, fun h => h6 (hest h)⟩
  rcases h3 with h3 | ⟨h3, hl⟩
  · exact .inl (hr.trans h3)
  · exact .inr ⟨hrc.trans h3, hlate h3 hl⟩

theorem Took.follows (h : Took s seg t) (hf : Follows s₀ s) : Follows s₀ t := by
  cases h.effect with
  | nothing h1 h2 h3 => exact hf.congr h1 h2 h3 h.est h.late
  | data d h1 _ _ h4 _ h6 hl hgiven hdropped =>
    obtain ⟨given, dropped, m, g1, g2, g3, g4, g5, g6⟩ := hf
    have hm : m = s.pcb.rseq := (g3.resolve_right fun h => hl h.2).symm
    have hseq : (⟨seg.seq, seg.buf.payload, d⟩ : Accepted).seq = m := by rw [hm]; exact h1
    have hrseq : t.pcb.rseq = m + UInt32.ofNat seg.buf.payload.length := by rw [h4, hm]; rfl
    cases d with
    | true =>
      have hnil : dropped = [] := g6 (hgiven rfl)
      subst hnil
      rw [append_nil] at g1 g2
      refine ⟨given ++ [⟨seg.seq, seg.buf.payload, true⟩], [], _, ?_, ?_, .inl hrseq, ?_, by simp, fun _ => rfl⟩
      · rw [h6, g1, append_nil, append_assoc]
      · rw [append_nil]
        exact g2.concat hseq
      · intro e he
        rcases mem_append.mp he with he | he
        · exact g4 e he
        · rw [mem_singleton.mp he]
    | false =>
      refine ⟨given, dropped ++ [⟨seg.seq, seg.buf.payload, false⟩], _, ?_, ?_, .inl hrseq, g4, ?_,
        fun h => absurd h (hdropped rfl)⟩
      · rw [h6, g1]
        simp only [append_assoc]
      · rw [← append_assoc]
        exact g2.concat hseq
      · intro e he
        rcases mem_append.mp he with he | he
        · exact g5 e he
        · rw [mem_singleton.mp he]
  | fin _ _ _ _ h5 h6 hl =>
    obtain ⟨given, dropped, m, g1, g2, -, g4, g5, -⟩ := hf
    exact ⟨given, dropped, m, h6.trans g1, g2, .inr ⟨h5, hl⟩, g4, g5, fun h => absurd h hl.ne.1⟩

theorem Ticked.late (h : Ticked s t) (hrc : s.pcb.rclose = true) (hl : s.Late) : t.Late := by
  rcases h.state with h | h | h
  · exact hl.of_state h
  · exact .inr (.inr h)
  · rw [hrc, if_pos rfl] at h
    exact .inr (.inl h)

theorem Ticked.est (h : Ticked s t) (ht : t.pcb.state = .established) : s.pcb.state = .established := by
  rcases h.state with h | h | h
  · rw [← h, ht]
  · rw [h] at ht
    cases ht
  · rw [h] at ht
    split_ifs at ht

theorem Ticked.follows (h : Ticked s t) (hf : Follows s₀ s) : Follows s₀ t :=
  hf.congr h.rseq h.rclose h.accepted h.est h.late

theorem Ticked.synced (h : Ticked s t) (hs : Synced s) : Synced t := by
  rcases h.state with hst | hst | hst
  · exact ⟨by rw [hst]; exact hs.state, by rw [hst, h.rclose]; exact hs.rclose⟩
  · refine ⟨.inr hst, ?_⟩
    rw [hst]
    rintro (h | h) <;> cases h
  · cases hc : s.pcb.rclose with
    | true =>
      rw [hc, if_pos rfl] at hst
      exact ⟨.inl (by rw [hst]; rfl), fun _ => h.rclose.trans hc⟩
    | false =>
      rw [hc] at hst
      have hst : t.pcb.state = .finWait1 := hst
      refine ⟨.inl (by rw [hst]; rfl), ?_⟩
      rw [hst]
      rintro (h | h) <;> cases h

theorem checkBuff_follows (hf : Follows s₀ s) : Follows s₀ s.checkBuff :=
  hf.congr rfl rfl rfl id fun _ h => h

/-- What the steps keep. -/
structure Receives (s₀ s : Sock) : Prop where
  synced : Synced s
  follows : Follows s₀ s

theorem step_receives {a : Act} (h : Receives s₀ s) (ha : FinsOk s a) (hst : s.act a = some t) :
    Receives s₀ t := by
  cases a with
  | input seg =>
    have htook : Took s seg t := input_took h.synced ha hst
    exact ⟨htook.synced, htook.follows h.follows⟩
  | tick =>
    have ht : Ticked s.checkBuff t := (Option.some.inj hst) ▸ socketTick_ticked s.checkBuff
    exact ⟨ht.synced ⟨h.synced.state, h.synced.rclose⟩, ht.follows (checkBuff_follows h.follows)⟩
  | call c =>
    have ht : Ticked s t := (Option.some.inj hst) ▸ (exec_reacts s c).toKeeps.ticked
    exact ⟨ht.synced h.synced, ht.follows h.follows⟩

/-- **In-order receive**: from a synchronised connection with FINs in order, each segment moves `rseq` as it
says or not at all, and what was received is the peer's stream. -/
theorem inOrder_run {s₀ s : Sock} {acts : List Act} (h₀ : Synced s₀) (hrun : (connection.restrict FinsOk).Run s₀ acts s) :
    Follows s₀ s ∧ ∀ seg s', FinOk s seg → s.input seg = some s' → InOrder s seg s' := by
  have h : Receives s₀ s :=
    hrun.invariant (P := Receives s₀) (fun s a s' h hst => step_receives h hst.1 hst.2) ⟨h₀, .refl s₀⟩
  exact ⟨h.follows, fun seg s' hok hi => (input_took h.synced hok hi).inOrder⟩

theorem inOrder_run_twoBytes : ∃ s, (connection.restrict FinsOk).Run (opened 1000 500)
      [.input (.plain 500 1000 { ack := true } [7, 8] (by decide)), .tick,
        .input (.plain 502 1000 { ack := true, fin := true } [] (by decide))] s ∧
    Follows (opened 1000 500) s := by
  have hrun : ∀ s₁ s₂ s₃ : Sock, (opened 1000 500).input (.plain 500 1000 { ack := true } [7, 8] (by decide)) = some s₁ →
      s₁.tick = s₂ → s₂.input (.plain 502 1000 { ack := true, fin := true } [] (by decide)) = some s₃ →
      s₂.pcb.rseq = 502 → (connection.restrict FinsOk).Run (opened 1000 500)
      [.input (.plain 500 1000 { ack := true } [7, 8] (by decide)), .tick,
        .input (.plain 502 1000 { ack := true, fin := true } [] (by decide))] s₃ := by
    intro s₁ s₂ s₃ h1 h2 h3 hr
    refine .cons ⟨?_, h1⟩ (.cons ⟨trivial, congrArg some h2⟩ (.cons ⟨?_, h3⟩ (.nil s₃)))
    · exact fun h => absurd h (by decide)
    · exact fun _ => .inr (.inr (.inr (.inl ⟨hr.symm, rfl⟩)))
  refine ⟨_, hrun _ _ _ (input_eq _ _) rfl (input_eq _ _) (by decide), ?_⟩
  exact (inOrder_run ⟨.inl rfl, by decide⟩ (hrun _ _ _ (input_eq _ _) rfl (input_eq _ _) (by decide))).1

/-- A FIN that starts elsewhere moves `rseq` there and ends the stream. -/
theorem fin_elsewhere : ∃ s', (opened 1000 500).input (.plain 900 1000 { ack := true, fin := true } [] (by decide)) = some s' ∧
    s'.pcb.rseq = 901 ∧ s'.pcb.rclose = true ∧
    ¬ InOrder (opened 1000 500) (.plain 900 1000 { ack := true, fin := true } [] (by decide)) s' := by
  refine ⟨_, input_eq _ _, by decide, by decide, fun h => ?_⟩
  exact absurd (h.other (by decide)).1 (by decide)

end Sock
end Tcp
end Vsf
