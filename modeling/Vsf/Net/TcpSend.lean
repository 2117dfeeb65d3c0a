/-
# TCP connections: what is sent

While a connection is open its output queue holds the unacknowledged segments, from `acked_lseq` to
`lseq`. A tick that sends one again rewinds `lseq` and puts it back (`resend_spec`). Two segments
ever sent are the same or apart (`Ledger.apart`). In runs of `sending` the user does not close,
acknowledgements end at a segment, and the numbers do not wrap.
-/
import Mathlib
import Vsf.Net.TcpRuns

namespace Vsf
namespace Tcp

open List Option

/-- Segments one after the other, from one sequence number to another. -/
def Contiguous : UInt32 → List Buf → UInt32 → Prop
  | a, [], l => a = l
  | a, b :: q, l => b.addr = a ∧ Contiguous (a + b.size) q l

/-- The same without wrapping around, of segments with data and room for the header. -/
def Line : ℕ → List Buf → ℕ → Prop
  | x, [], y => x = y
  | x, b :: q, y => (b.addr.toNat = x ∧ b.payload ≠ [] ∧ 20 ≤ b.room) ∧ Line (x + b.payload.length) q y

/-- A call of a user who sends segments with data and does not close. -/
def Call.Ok : Call → Prop
  | .asyncSend b => b.payload ≠ [] ∧ 20 ≤ b.room
  | .send _ _ _ b _ => b.payload ≠ [] ∧ 20 ≤ b.room
  | .close _ _ _ => False
  | _ => True

namespace Sock

/-- A segment with data was sent: its buffer, its sequence number, its payload. -/
def seen (s : Sock) (i : ℕ) (n : UInt32) (p : List UInt8) : Prop :=
  p ≠ [] ∧ ∃ e ∈ s.log.sent, e.id = i ∧ e.head.seq = n ∧ e.payload = p

/-- What was sent lies below `lseq`; two segments are the same or apart; the queue was sent as it is. -/
structure Ledger (s : Sock) : Prop where
  below : ∀ i n p, s.seen i n p → n.toNat + p.length ≤ s.pcb.lseq.toNat
  apart : ∀ i n p i' n' p', s.seen i n p → s.seen i' n' p' → (i = i' ∧ n = n' ∧ p = p') ∨
    n.toNat + p.length ≤ n'.toNat ∨ n'.toNat + p'.length ≤ n.toNat
  queued : ∀ b ∈ s.outq, s.seen b.id b.addr b.payload

/-- No segment ends beyond the last sequence number. -/
def NoWrap (s : Sock) : Prop := ∀ e ∈ s.log.sent, e.payload ≠ [] → e.head.seq.toNat + e.payload.length < 2 ^ 32

/-- The states in which data is sent. -/
def Open (s : Sock) : Prop := s.pcb.state = .established ∨ s.pcb.state = .closeWait

/-- The next calls of the user are as they should be. -/
def CallsOk (s : Sock) : Prop := ∀ calls ∈ s.env, ∀ c ∈ calls, c.Ok

/-- A new connection: nothing is queued and no data was sent. -/
structure Fresh (s : Sock) : Prop where
  opened : s.Open
  outq : s.outq = []
  lseq : s.pcb.ackedLseq = s.pcb.lseq
  quiet : s.pcb.txTimeoutMs = 0
  sent : ∀ e ∈ s.log.sent, e.payload = []
  calls : s.CallsOk

/-- No RST, and an acknowledgement is the last one or ends at a segment; the user does not close. -/
def Allowed (s : Sock) : Act → Prop
  | .input seg => seg.flags.rst = false ∧
    (seg.flags.ack → seg.ackseq = s.pcb.ackedLseq ∨ ∃ b ∈ s.outq, seg.ackseq = b.addr + b.size)
  | .tick => True
  | .call c => c.Ok

end Sock

/-- A connection that stays open and on which numbers do not wrap. -/
def sending : System Sock Act where
  start := Sock.Fresh
  step s a s' := s.act a = some s' ∧ s.Allowed a ∧ s'.Open ∧ s'.NoWrap

/-! ### Lines of segments -/

theorem Line.le : ∀ {q : List Buf} {x y : ℕ}, Line x q y → x ≤ y
  | [], _, _, h => Nat.le_of_eq h
  | b :: _, _, _, ⟨_, h⟩ => (Nat.le_add_right _ b.payload.length).trans (Line.le h)

variable {b : Buf} {l : UInt32}

theorem toNat_add_size {n : UInt32} (h : n.toNat + b.payload.length < 2 ^ 32) :
    (n + b.size).toNat = n.toNat + b.payload.length := by
  rw [UInt32.toNat_add, b.size_toNat, Nat.mod_eq_of_lt h]

theorem Line.contiguous : ∀ {q : List Buf} {a : UInt32}, Line a.toNat q l.toNat → Contiguous a q l
  | [], _, h => UInt32.toNat_inj.mp h
  | b :: q, a, ⟨⟨h1, _, _⟩, h2⟩ => by
    refine ⟨UInt32.toNat_inj.mp h1, Line.contiguous ?_⟩
    rw [toNat_add_size (h2.le.trans_lt l.toNat_lt)]
    exact h2

theorem Line.append : ∀ {q q' : List Buf} {x y z : ℕ}, Line x q y → Line y q' z → Line x (q ++ q') z
  | [], _, _, _, _, h, h' => by
    rw [show _ = _ from h]
    exact h'
  | _ :: _, _, _, _, _, ⟨h1, h2⟩, h' => ⟨h1, Line.append h2 h'⟩

theorem Line.split : ∀ {q q' : List Buf} {x z : ℕ}, Line x (q ++ q') z → ∃ y, Line x q y ∧ Line y q' z
  | [], _, x, _, h => ⟨x, rfl, h⟩
  | _ :: _, _, _, _, ⟨h1, h2⟩ => by
    obtain ⟨y, h3, h4⟩ := Line.split h2
    exact ⟨y, ⟨h1, h3⟩, h4⟩

namespace Sock

/-! ### What the user's calls do -/

/-- The queue is a line from `x` to `lseq`; `x` is not yet `acked_lseq` while segments are taken off. -/
structure Sends (x : ℕ) (st : Stat) (a : UInt32) (s : Sock) : Prop where
  line : Line x s.outq s.pcb.lseq.toNat
  quiet : s.pcb.txTimeoutMs = 0
  state : s.pcb.state = st
  ackedLseq : s.pcb.ackedLseq = a
  ledger : s.Ledger
  calls : s.CallsOk

variable {s s' t : Sock} {x : ℕ} {st : Stat} {a : UInt32} {seg : Seg}

theorem NoWrap.mono (h : NoWrap s') (hs : ∃ es, s'.log.sent = s.log.sent ++ es) : NoWrap s := by
  obtain ⟨es, hes⟩ := hs
  refine fun e he => h e ?_
  rw [hes]
  exact mem_append_left es he

theorem Keeps.noWrap (h : Keeps s s') (hw : NoWrap s') : NoWrap s := by
  obtain ⟨es, hes, -⟩ := h.sent
  exact hw.mono ⟨es, hes⟩

/-- Segments without data are not in the ledger. -/
theorem seen_iff {es : List Sent} (hs : s'.log.sent = s.log.sent ++ es) (hes : ∀ e ∈ es, e.payload = []) (i : ℕ)
    (n : UInt32) (p : List UInt8) : s'.seen i n p ↔ s.seen i n p := by
  unfold seen
  refine and_congr_right fun hp => ?_
  constructor
  · rintro ⟨e, he, h1, h2, h3⟩
    rw [hs] at he
    rcases mem_append.mp he with he | he
    · exact ⟨e, he, h1, h2, h3⟩
    · exact absurd (h3.symm.trans (hes e he)) hp
  · rintro ⟨e, he, h⟩
    exact ⟨e, by rw [hs]; exact mem_append_left es he, h⟩

theorem Ledger.congr (h : Ledger s) (hseen : ∀ i n p, s'.seen i n p ↔ s.seen i n p) (hl : s'.pcb.lseq = s.pcb.lseq)
    (ho : s'.outq = s.outq) : Ledger s' := by
  refine ⟨fun i n p hp => ?_, fun i n p i' n' p' hp hp' => ?_, fun b hb => ?_⟩
  · rw [hl]
    exact h.below i n p ((hseen i n p).mp hp)
  · exact h.apart i n p i' n' p' ((hseen i n p).mp hp) ((hseen i' n' p').mp hp')
  · rw [ho] at hb
    exact (hseen _ _ _).mpr (h.queued b hb)

theorem Sends.congr (h : Sends x st a s) (ho : s'.outq = s.outq) (hl : s'.pcb.lseq = s.pcb.lseq)
    (hq : s'.pcb.txTimeoutMs = s.pcb.txTimeoutMs) (hst : s'.pcb.state = s.pcb.state)
    (ha : s'.pcb.ackedLseq = s.pcb.ackedLseq) (he : s'.env = s.env)
    (hs : ∃ es, s'.log.sent = s.log.sent ++ es ∧ ∀ e ∈ es, e.payload = []) : Sends x st a s' := by
  obtain ⟨es, hes, hnil⟩ := hs
  refine ⟨by rw [ho, hl]; exact h.line, hq.trans h.quiet, hst.trans h.state, ha.trans h.ackedLseq,
    h.ledger.congr (seen_iff hes hnil) hl ho, ?_⟩
  unfold CallsOk
  rw [he]
  exact h.calls

theorem Sends.sameLog (h : Sends x st a s) (ho : s'.outq = s.outq) (hl : s'.pcb.lseq = s.pcb.lseq)
    (hq : s'.pcb.txTimeoutMs = s.pcb.txTimeoutMs) (hst : s'.pcb.state = s.pcb.state)
    (ha : s'.pcb.ackedLseq = s.pcb.ackedLseq) (he : s'.env = s.env) (hs : s'.log.sent = s.log.sent) :
    Sends x st a s' :=
  h.congr ho hl hq hst ha he ⟨[], by rw [hs, append_nil], by simp⟩

theorem Sends.flags (h : Sends x st a s) {f : Flags} (hf : f.syn = false ∧ f.fin = false) :
    Sends x st a (s.sendflags f).2 := by
  obtain ⟨es, hes, hnil⟩ := sendflags_sent s f
  refine h.congr (by simp) (by simp) ?_ (by simp) (by simp) (by simp) ⟨es, hes, fun e he => (hnil e he).2⟩
  rw [sendflags_txTimeoutMs, hf.1, hf.2]
  simp

theorem seen_concat {e : Sent} (hs : s'.log.sent = s.log.sent ++ [e]) (hne : e.payload ≠ []) (i : ℕ) (n : UInt32)
    (p : List UInt8) : s'.seen i n p ↔ s.seen i n p ∨ (i = e.id ∧ n = e.head.seq ∧ p = e.payload) := by
  unfold seen
  rw [hs]
  constructor
  · rintro ⟨hp, e', he', h1, h2, h3⟩
    rcases mem_append.mp he' with he' | he'
    · exact .inl ⟨hp, e', he', h1, h2, h3⟩
    · rw [mem_singleton.mp he'] at h1 h2 h3
      exact .inr ⟨h1.symm, h2.symm, h3.symm⟩
  · rintro (⟨hp, e', he', h⟩ | ⟨rfl, rfl, rfl⟩)
    · exact ⟨hp, e', mem_append_left _ he', h⟩
    · exact ⟨hne, e, mem_append_right _ (mem_singleton_self e), rfl, rfl, rfl⟩

theorem Ledger.push (h : Ledger s) {e : Sent} {b : Buf} (hs : s'.log.sent = s.log.sent ++ [e]) (hne : e.payload ≠ [])
    (hseq : e.head.seq = s.pcb.lseq) (hl : s'.pcb.lseq.toNat = s.pcb.lseq.toNat + e.payload.length)
    (ho : s'.outq = s.outq ++ [b]) (hb : b.id = e.id ∧ b.addr = e.head.seq ∧ b.payload = e.payload) : Ledger s' := by
  have hseen := seen_concat hs hne
  refine ⟨fun i n p hp => ?_, fun i n p i' n' p' hp hp' => ?_, fun c hc => ?_⟩
  · rcases (hseen i n p).mp hp with hp | ⟨-, rfl, rfl⟩
    · have := h.below i n p hp
      omega
    · rw [hseq, hl]
  · rcases (hseen i n p).mp hp with hp | ⟨rfl, rfl, rfl⟩ <;> rcases (hseen i' n' p').mp hp' with hp' | ⟨rfl, rfl, rfl⟩
    · exact h.apart i n p i' n' p' hp hp'
    · rw [hseq]
      exact .inr (.inl (h.below i n p hp))
    · rw [hseq]
      exact .inr (.inr (h.below i' n' p' hp'))
    · exact .inl ⟨rfl, rfl, rfl⟩
  · rw [ho] at hc
    rcases mem_append.mp hc with hc | hc
    · exact (hseen _ _ _).mpr (.inl (h.queued c hc))
    · rw [mem_singleton.mp hc]
      exact (hseen _ _ _).mpr (.inr hb)

theorem asyncSend_sends (h : Sends x st a s) {b : Buf} (hb : b.payload ≠ [] ∧ 20 ≤ b.room)
    (hw : NoWrap (s.asyncSend b).2) : Sends x st a (s.asyncSend b).2 := by
  generalize hr : s.asyncSend b = r at hw ⊢
  have hcase := asyncSend_cases s b
  rw [hr] at hcase
  cases hcase with
  | waited => exact h.sameLog rfl rfl rfl rfl rfl rfl rfl
  | closed => exact h.sameLog rfl rfl rfl rfl rfl rfl rfl
  | full => exact h
  | noRoute => exact h
  | noRoom _ _ _ _ hroom => exact absurd hb.2 (not_le.mpr hroom)
  | @sent netif b' _ _ _ _ hroom hb' =>
    have hpay : b'.payload = b.payload := by rw [hb']
    have hlt : s.pcb.lseq.toNat + b'.payload.length < 2 ^ 32 := by
      refine hw (s.built b' { psh := true }) ?_ ?_
      · exact mem_append_right _ (mem_singleton_self _)
      · rw [show (s.built b' { psh := true }).payload = b'.payload from rfl, hpay]
        exact hb.1
    have hadd := toNat_add_size hlt
    have hne : b'.payload ≠ [] := by
      rw [hpay]
      exact hb.1
    have hline : Line s.pcb.lseq.toNat [s.headed b' { psh := true }] (s.pcb.lseq + b'.size).toNat := by
      refine ⟨⟨rfl, hne, ?_⟩, hadd.symm⟩
      show 20 ≤ b'.room
      rw [hb']
      exact hroom
    refine ⟨h.line.append hline, h.quiet, h.state, h.ackedLseq, ?_, h.calls⟩
    exact h.ledger.push (e := s.built b' { psh := true }) (b := s.headed b' { psh := true }) rfl hne rfl hadd rfl
      ⟨rfl, rfl, rfl⟩

theorem sendFlush_sends (h : Sends x st a s) (sm : ℕ) : Sends x st a (s.sendFlush sm).2.2 := by
  unfold sendFlush
  split_ifs
  · exact h.sameLog rfl rfl rfl rfl rfl rfl rfl
  · exact h

theorem sendTry_sends (h : Sends x st a s) {b : Buf} (hb : b.payload ≠ [] ∧ 20 ≤ b.room) (sm : ℕ) (flush : Bool)
    (hw : NoWrap (s.sendTry sm b flush).2.2) : Sends x st a (s.sendTry sm b flush).2.2 := by
  unfold sendTry at hw ⊢
  dsimp only at hw ⊢
  split_ifs at hw ⊢
  · exact (asyncSend_sends h hb hw).sameLog rfl rfl rfl rfl rfl rfl rfl
  · exact sendFlush_sends (asyncSend_sends h hb ((sendFlush_reacts _ sm).toKeeps.noWrap hw)) sm
  · exact asyncSend_sends h hb hw
  · exact (asyncSend_sends h hb hw).sameLog rfl rfl rfl rfl rfl rfl rfl

theorem send_sends (h : Sends x st a s) {b : Buf} (hb : b.payload ≠ [] ∧ 20 ≤ b.room) (sm : ℕ) (pc : SendPc) (evt : Evt)
    (flush : Bool) (hw : NoWrap (s.send sm pc evt b flush).2.2) : Sends x st a (s.send sm pc evt b flush).2.2 := by
  unfold send at hw ⊢
  cases pc with
  | start => exact sendTry_sends h hb sm flush hw
  | waiting =>
    split_ifs at hw ⊢
    · exact h.sameLog rfl rfl rfl rfl rfl rfl rfl
    · exact sendTry_sends h hb sm flush hw
    · exact h
  | flushing =>
    split_ifs
    · exact h.sameLog rfl rfl rfl rfl rfl rfl rfl
    · exact sendFlush_sends h sm
    · exact h

theorem asyncRecv_sends (h : Sends x st a s) : Sends x st a s.asyncRecv.2.2 := by
  unfold asyncRecv
  split_ifs
  · exact h
  · exact h
  · split <;> exact h.sameLog rfl rfl rfl rfl rfl rfl rfl

theorem recv_sends (h : Sends x st a s) (sm : ℕ) (pc : RecvPc) (evt : Evt) : Sends x st a (s.recv sm pc evt).2.2.2 := by
  have h' := asyncRecv_sends h
  unfold recv
  cases pc with
  | start =>
    dsimp only
    split_ifs
    · exact h'.sameLog rfl rfl rfl rfl rfl rfl rfl
    · exact h'
  | waiting =>
    split_ifs <;> first | exact h' | exact h

/-- **A call keeps the line.** -/
theorem exec_sends (h : Sends x st a s) {c : Call} (hc : c.Ok) (hw : NoWrap (s.exec c)) : Sends x st a (s.exec c) := by
  cases c with
  | asyncSend b => exact asyncSend_sends h hc hw
  | asyncRecv => exact asyncRecv_sends h
  | send sm pc evt b flush => exact send_sends h hc sm pc evt flush hw
  | recv sm pc evt => exact recv_sends h sm pc evt
  | close sm pc evt => exact hc.elim

theorem foldl_exec_sends : ∀ (cs : List Call) (s : Sock), Sends x st a s → (∀ c ∈ cs, c.Ok) →
    NoWrap (cs.foldl exec s) → Sends x st a (cs.foldl exec s)
  | [], _, h, _, _ => h
  | c :: cs, s, h, hc, hw => by
    have hw' : NoWrap (s.exec c) := (foldl_exec_reacts cs (s.exec c)).toKeeps.noWrap hw
    exact foldl_exec_sends cs _ (exec_sends h (hc c mem_cons_self) hw')
      (fun c' hc' => hc c' (mem_cons_of_mem c hc')) hw

theorem react_sends (h : Sends x st a s) (hw : NoWrap s.react) : Sends x st a s.react := by
  have hcalls := h.calls
  unfold react at hw ⊢
  unfold CallsOk at hcalls
  cases he : s.env with
  | nil =>
    rw [he] at hw
    exact h
  | cons calls env =>
    rw [he] at hw hcalls
    refine foldl_exec_sends calls _ ?_ (hcalls calls mem_cons_self) hw
    exact ⟨h.line, h.quiet, h.state, h.ackedLseq, h.ledger.congr (fun _ _ _ => Iff.rfl) rfl rfl,
      fun cs hcs => hcalls cs (mem_cons_of_mem calls hcs)⟩

theorem postTx_sends (h : Sends x st a s) {evt : Evt} (hw : NoWrap (s.postTx evt)) : Sends x st a (s.postTx evt) := by
  unfold postTx at hw ⊢
  cases hsm : s.pcb.txSm with
  | none => exact h
  | some sm =>
    rw [hsm] at hw
    exact react_sends (h.sameLog rfl rfl rfl rfl rfl rfl rfl) hw

theorem postRx_sends (h : Sends x st a s) {evt : Evt} (hw : NoWrap (s.postRx evt)) : Sends x st a (s.postRx evt) := by
  unfold postRx at hw ⊢
  cases hsm : s.pcb.rxSm with
  | none => exact h
  | some sm =>
    rw [hsm] at hw
    exact react_sends (h.sameLog rfl rfl rfl rfl rfl rfl rfl) hw

/-! ### Acknowledgements -/

/-- A sequence number at which a segment of the queue ends, or at which it starts. -/
def Bound (y x : ℕ) (q : List Buf) : Prop := ∃ pre, pre <+: q ∧ Line x pre y

variable {y : ℕ} {q : List Buf}

theorem Bound.append (h : Bound y x q) (n : List Buf) : Bound y x (q ++ n) := by
  obtain ⟨pre, hpre, hline⟩ := h
  exact ⟨pre, hpre.trans (prefix_append q n), hline⟩

/-- The first segment is acknowledged exactly when the boundary is not before it. -/
theorem Bound.cons_cases {z : ℕ} (h : Bound y x (b :: q)) (hline : Line x (b :: q) z) :
    (x + b.payload.length ≤ y ∧ Bound y (x + b.payload.length) q) ∨ (y < x + b.payload.length ∧ x = y) := by
  obtain ⟨pre, hpre, hl⟩ := h
  have hlen : 0 < b.payload.length := length_pos_iff.mpr hline.1.2.1
  cases pre with
  | nil =>
    have hxy : x = y := hl
    exact .inr ⟨by omega, hxy⟩
  | cons c pre =>
    obtain ⟨rfl, hpre'⟩ := cons_prefix_cons.mp hpre
    exact .inl ⟨hl.2.le, pre, hpre', hl.2⟩

theorem Sends.pop (h : Sends x st a s) {b : Buf} {q : List Buf} (hq : s.outq = b :: q) :
    Sends (x + b.payload.length) st a { s with outq := q, log := { s.log with acked := s.log.acked ++ [b] } } := by
  have hline := h.line
  rw [hq] at hline
  refine ⟨hline.2, h.quiet, h.state, h.ackedLseq, ⟨h.ledger.below, h.ledger.apart, fun c hc => ?_⟩, h.calls⟩
  refine h.ledger.queued c ?_
  rw [hq]
  exact mem_cons_of_mem b hc

theorem ackOne_sends (h : Sends x st a s) {b : Buf} {q : List Buf} (hq : s.outq = b :: q)
    (hw : NoWrap (s.ackOne b q)) : Sends (x + b.payload.length) st a (s.ackOne b q) := by
  have hpop := h.pop hq
  unfold ackOne at hw ⊢
  dsimp only at hw ⊢
  split_ifs at hw ⊢
  · exact (react_sends hpop hw).sameLog rfl rfl rfl rfl rfl rfl rfl
  · exact hpop.sameLog rfl rfl rfl rfl rfl rfl rfl

/-- **The loop takes off the segments up to the boundary.** -/
theorem ackLoop_sends : ∀ (f : ℕ) (s : Sock) (x : ℕ), s.pending < f → Sends x st a s → Bound a.toNat x s.outq →
    NoWrap (ackLoop f s) → Sends a.toNat st a (ackLoop f s)
  | 0, _, _, hf, _, _, _ => absurd hf (Nat.not_lt_zero _)
  | f + 1, s, x, hf, h, hbound, hw => by
    unfold ackLoop at hw ⊢
    cases hq : s.outq with
    | nil =>
      obtain ⟨pre, hpre, hl⟩ := hbound
      rw [hq] at hpre
      rw [prefix_nil.mp hpre] at hl
      have hx : x = a.toNat := hl
      rw [← hx]
      exact h
    | cons b q =>
      rw [hq] at hw hbound
      dsimp only at hw ⊢
      have hline := h.line
      rw [hq] at hline
      have hend : (b.addr + b.size).toNat = x + b.payload.length := by
        rw [← hline.1.1]
        refine toNat_add_size ?_
        rw [hline.1.1]
        exact hline.2.le.trans_lt s.pcb.lseq.toNat_lt
      have hcmp : s.pcb.ackedLseq ≥ b.addr + b.size ↔ x + b.payload.length ≤ a.toNat := by
        rw [h.ackedLseq, ge_iff_le, UInt32.le_iff_toNat_le, hend]
      rcases hbound.cons_cases hline with ⟨hle, hbound⟩ | ⟨hlt, rfl⟩
      · rw [if_pos (hcmp.mpr hle)] at hw ⊢
        have hw₁ : NoWrap (s.ackOne b q) := (ackLoop_keeps f _).noWrap hw
        obtain ⟨n, hn⟩ := (ackOne_reacts s b q).outq
        refine ackLoop_sends f (s.ackOne b q) _ (by have := ackOne_pending hq; omega) (ackOne_sends h hq hw₁) ?_ hw
        rw [hn]
        exact hbound.append n
      · rw [if_neg fun hge => absurd (hcmp.mp hge) (not_le.mpr hlt)]
        exact h

theorem ackInput_sends {una : UInt32} (h : Sends una.toNat st una s) (hbound : Bound a.toNat una.toNat s.outq)
    (hw : NoWrap (s.ackInput a)) : Sends a.toNat st a (s.ackInput a) :=
  ackLoop_sends _ _ una.toNat (Nat.lt_succ_self _)
    ⟨h.line, rfl, h.state, rfl, h.ledger.congr (fun _ _ _ => Iff.rfl) rfl rfl, h.calls⟩ hbound hw

/-! ### Segments -/

/-- An open connection whose queue is a line, and the segment handled acknowledges at a boundary. -/
structure Good (seg : Seg) (t : Sock) : Prop where
  opened : t.Open
  sends : Sends t.pcb.ackedLseq.toNat t.pcb.state t.pcb.ackedLseq t
  bound : seg.flags.ack = true → Bound seg.ackseq.toNat t.pcb.ackedLseq.toNat t.outq

/-- The peer's FIN closed a connection that was already closed here. -/
def Shut (t : Sock) : Prop := t.pcb.state = .closed ∧ t.pcb.lclose = true

/-- The invariant while a segment is handled. -/
def Handled (seg : Seg) (t : Sock) : Prop := t.Shut ∨ (NoWrap t → Good seg t)

theorem Good.next (h : Good seg s) (hs : Sends s.pcb.ackedLseq.toNat s.pcb.state s.pcb.ackedLseq t)
    (hout : ∃ n, t.outq = s.outq ++ n) : Good seg t := by
  obtain ⟨n, hn⟩ := hout
  refine ⟨?_, ?_, fun ha => ?_⟩
  · unfold Open
    rw [hs.state]
    exact h.opened
  · rw [hs.ackedLseq, hs.state]
    exact hs
  · rw [hs.ackedLseq, hn]
    exact (h.bound ha).append n

theorem Handled.of_open (h : Handled seg s) (hne : s.pcb.state ≠ .closed) (hw : NoWrap s) : Good seg s :=
  h.resolve_left (fun hshut => hne hshut.1) hw

theorem Handled.sameLog (h : Handled seg s) (hpcb : t.pcb.state = s.pcb.state ∧ t.pcb.lclose = s.pcb.lclose)
    (ho : t.outq = s.outq) (hl : t.pcb.lseq = s.pcb.lseq) (hq : t.pcb.txTimeoutMs = s.pcb.txTimeoutMs)
    (ha : t.pcb.ackedLseq = s.pcb.ackedLseq) (he : t.env = s.env)
    (hs : ∃ es, t.log.sent = s.log.sent ++ es ∧ ∀ e ∈ es, e.payload = []) : Handled seg t := by
  rcases h with ⟨h1, h2⟩ | h
  · exact .inl ⟨hpcb.1.trans h1, hpcb.2.trans h2⟩
  · refine .inr fun hw => ?_
    have hgood := h (hw.mono (hs.imp fun _ h => h.1))
    exact hgood.next (hgood.sends.congr ho hl hq hpcb.1 ha he hs) ⟨[], by rw [ho, append_nil]⟩

theorem Handled.rfl_log (h : Handled seg s) (hpcb : t.pcb.state = s.pcb.state ∧ t.pcb.lclose = s.pcb.lclose)
    (ho : t.outq = s.outq) (hl : t.pcb.lseq = s.pcb.lseq) (hq : t.pcb.txTimeoutMs = s.pcb.txTimeoutMs)
    (ha : t.pcb.ackedLseq = s.pcb.ackedLseq) (he : t.env = s.env) (hs : t.log.sent = s.log.sent) : Handled seg t :=
  h.sameLog hpcb ho hl hq ha he ⟨[], by rw [hs, append_nil], by simp⟩

theorem Handled.reacts (h : Handled seg s) (hr : Reacts s t)
    (hsends : ∀ {x : ℕ} {st : Stat} {a : UInt32}, Sends x st a s → NoWrap t → Sends x st a t) : Handled seg t := by
  rcases h with ⟨h1, h2⟩ | h
  · refine .inl ⟨?_, hr.lclose.trans h2⟩
    rcases hr.state with h | ⟨h, -⟩
    · exact h.trans h1
    · rw [h2] at h
      cases h
  · refine .inr fun hw => ?_
    have hgood := h (hr.toKeeps.noWrap hw)
    exact hgood.next (hsends hgood.sends hw) hr.outq

theorem Handled.react (h : Handled seg s) : Handled seg s.react := h.reacts (react_reacts s) react_sends

theorem Handled.passiveClose (h : Handled seg s) (hne : s.pcb.state ≠ .closed) : Handled seg (s.passiveClose seg) := by
  have hstate := passiveClose_state seg s
  cases hl : s.pcb.lclose with
  | true =>
    rw [hl, if_pos rfl] at hstate
    exact .inl ⟨hstate, by rw [passiveClose_lclose, hl]⟩
  | false =>
    rw [hl] at hstate
    have hstate : (s.passiveClose seg).pcb.state = .closeWait := hstate
    refine .inr fun hw => ?_
    set u : Sock := { s with pcb := { s.pcb with rclose := true, rseq := seg.seq + 1 } }
    obtain ⟨es, hes, hnil⟩ := sendflags_sent u { ack := true }
    have hgood := h.of_open hne (hw.mono ⟨es, hes⟩)
    have hu : Sends s.pcb.ackedLseq.toNat s.pcb.state s.pcb.ackedLseq u :=
      hgood.sends.sameLog rfl rfl rfl rfl rfl rfl rfl
    have hf := hu.flags (f := { ack := true }) ⟨rfl, rfl⟩
    have ha : (s.passiveClose seg).pcb.ackedLseq = s.pcb.ackedLseq := by simp [Sock.passiveClose]
    refine ⟨.inr hstate, ?_, fun hack => ?_⟩
    · rw [ha, hstate]
      exact ⟨hf.line, hf.quiet, hstate, ha, hf.ledger.congr (fun _ _ _ => Iff.rfl) rfl rfl, hf.calls⟩
    · rw [ha]
      have ho : (s.passiveClose seg).outq = s.outq := by simp [Sock.passiveClose]
      rw [ho]
      exact hgood.bound hack

/-- **A segment keeps the line.** -/
theorem handled_kept : Kept (Handled seg) seg where
  drop s h := h.rfl_log ⟨rfl, rfl⟩ rfl rfl rfl rfl rfl rfl
  look s h := h.rfl_log ⟨rfl, rfl⟩ rfl rfl rfl rfl rfl rfl
  flags s f h hf := by
    obtain ⟨es, hes, hnil⟩ := sendflags_sent s f
    refine h.sameLog ⟨by simp, by simp⟩ (by simp) (by simp) ?_ (by simp) (by simp) ⟨es, hes, fun e he => (hnil e he).2⟩
    rw [sendflags_txTimeoutMs]
    rcases hf with rfl | rfl <;> simp
  postTx s evt h _ := h.reacts (postTx_reacts s evt) fun hs hw => postTx_sends hs hw
  postRx s evt h _ := h.reacts (postRx_reacts s evt) fun hs hw => postRx_sends hs hw
  data s h _ _ _ := by
    have hcount : Handled seg (s.count seg) := h.rfl_log ⟨rfl, rfl⟩ rfl rfl rfl rfl rfl rfl
    unfold dataInput
    dsimp only
    split_ifs
    · exact hcount.react
    · exact hcount.rfl_log ⟨rfl, rfl⟩ rfl rfl rfl rfl rfl rfl
  ack s h hst hack _ := by
    refine .inr fun hw => ?_
    have hne : s.pcb.state ≠ .closed := by rcases hst with h | h <;> rw [h] <;> decide
    have hgood := h.of_open hne ((ackInput_keeps s _).noWrap hw)
    have hs := ackInput_sends hgood.sends (hgood.bound hack) hw
    refine ⟨?_, ?_, fun _ => ⟨[], nil_prefix, ?_⟩⟩
    · unfold Open
      rw [hs.state]
      exact hst
    · rw [hs.ackedLseq, hs.state]
      exact hs
    · rw [hs.ackedLseq]
      rfl
  discard s h hst _ _ := h.rfl_log ⟨rfl, rfl⟩ rfl rfl rfl rfl rfl rfl
  fin s h hst _ _ _ := h.passiveClose fun hc => by rw [hc] at hst; cases hst
  finAcked s h hst _ _ := by
    refine .inr fun hw => ?_
    have hopen := (h.of_open (by rcases hst with h | h <;> rw [h] <;> decide) hw).opened
    rcases hst with h | h <;> rcases hopen with h' | h' <;> rw [h] at h' <;> cases h'
  finWait2 s h hst := by
    refine .inr fun hw => ?_
    have hopen := (h.of_open (by rw [hst]; decide) hw).opened
    rcases hopen with h' | h' <;> rw [hst] at h' <;> cases h'
  closed s h hst := by
    refine .inr fun hw => ?_
    have hopen := (h.of_open (by rw [hst]; decide) hw).opened
    rcases hopen with h' | h' <;> rw [hst] at h' <;> cases h'

/-- Where a segment of the queue ends is a boundary. -/
theorem Line.bound (h : Line x q l.toNat) (hb : b ∈ q) : Bound (b.addr + b.size).toNat x q := by
  obtain ⟨pre, post, rfl⟩ := append_of_mem hb
  obtain ⟨y, h1, h2⟩ := Line.split h
  have hend : (b.addr + b.size).toNat = y + b.payload.length := by
    rw [← h2.1.1]
    refine toNat_add_size ?_
    rw [h2.1.1]
    exact h2.2.le.trans_lt l.toNat_lt
  refine ⟨pre ++ [b], ?_, h1.append ⟨h2.1, ?_⟩⟩
  · rw [show pre ++ b :: post = pre ++ [b] ++ post by simp]
    exact prefix_append _ _
  · exact hend.symm

theorem input_sends (h : Sends s.pcb.ackedLseq.toNat s.pcb.state s.pcb.ackedLseq s) (hopen : s.Open)
    (hallowed : s.Allowed (.input seg)) (hopen' : t.Open) (hw : NoWrap t) (hi : s.input seg = some t) :
    Sends t.pcb.ackedLseq.toNat t.pcb.state t.pcb.ackedLseq t := by
  have hgood : Good seg s := by
    refine ⟨hopen, h, fun ha => ?_⟩
    rcases hallowed.2 ha with ha | ⟨b, hb, ha⟩
    · rw [ha]
      exact ⟨[], nil_prefix, rfl⟩
    · rw [ha]
      exact Line.bound h.line hb
  have hs : Handled seg s := .inr fun _ => hgood
  have ht : Handled seg t := by
    rw [input_eq, Option.some.injEq, if_neg (c := seg.flags.rst = true) (by rw [hallowed.1]; decide)] at hi
    rw [← hi]
    split_ifs
    · exact handled_kept.drop s hs
    · refine passes_kept handled_kept (.inl ?_) (hs.rfl_log ⟨rfl, rfl⟩ rfl rfl rfl rfl rfl rfl)
      show s.pcb.state.synchronised = true
      rcases hopen with h | h <;> rw [h] <;> rfl
  exact (ht.of_open (by rcases hopen' with h | h <;> rw [h] <;> decide) hw).sends

/-! ### Ticks -/

/-- The same segment, with another time to live or number of retries. -/
structure Copy (b b' : Buf) : Prop where
  id : b'.id = b.id
  addr : b'.addr = b.addr
  payload : b'.payload = b.payload
  room : b'.room = b.room

theorem Copy.trans {b' b'' : Buf} (h : Copy b b') (h' : Copy b' b'') : Copy b b'' :=
  ⟨h'.id.trans h.id, h'.addr.trans h.addr, h'.payload.trans h.payload, h'.room.trans h.room⟩

/-- Only segments of `q` were sent again, as they are. -/
structure Resent (q : List Buf) (s t : Sock) : Prop where
  lseq : t.pcb.lseq = s.pcb.lseq
  quiet : t.pcb.txTimeoutMs = s.pcb.txTimeoutMs
  state : t.pcb.state = s.pcb.state
  ackedLseq : t.pcb.ackedLseq = s.pcb.ackedLseq
  env : t.env = s.env
  sent : ∃ es, t.log.sent = s.log.sent ++ es ∧
    ∀ e ∈ es, ∃ b ∈ q, e.id = b.id ∧ e.head.seq = b.addr ∧ e.payload = b.payload

theorem Resent.refl (q : List Buf) (s : Sock) : Resent q s s :=
  ⟨rfl, rfl, rfl, rfl, rfl, [], (append_nil _).symm, by simp⟩

theorem Resent.trans {s s' s'' : Sock} (h : Resent q s s') (h' : Resent q s' s'') : Resent q s s'' := by
  refine ⟨h'.lseq.trans h.lseq, h'.quiet.trans h.quiet, h'.state.trans h.state, h'.ackedLseq.trans h.ackedLseq,
    h'.env.trans h.env, ?_⟩
  obtain ⟨es, h1, h2⟩ := h.sent
  obtain ⟨es', h3, h4⟩ := h'.sent
  refine ⟨es ++ es', by rw [h3, h1, append_assoc], fun e he => ?_⟩
  rcases mem_append.mp he with he | he
  · exact h2 e he
  · exact h4 e he

theorem Resent.mono {q' : List Buf} (h : Resent q s t) (hq : ∀ b ∈ q, ∃ b' ∈ q', Copy b' b) : Resent q' s t := by
  obtain ⟨es, h1, h2⟩ := h.sent
  refine ⟨h.lseq, h.quiet, h.state, h.ackedLseq, h.env, es, h1, fun e he => ?_⟩
  obtain ⟨b, hb, h3, h4, h5⟩ := h2 e he
  obtain ⟨b', hb', hc⟩ := hq b hb
  exact ⟨b', hb', h3.trans hc.id, h4.trans hc.addr, h5.trans hc.payload⟩

/-- **A segment is sent again under the sequence number it has.** -/
theorem resend_spec (s : Sock) (b : Buf) : Copy b (s.resend b).1 ∧ Resent [b] s (s.resend b).2 := by
  unfold resend
  dsimp only
  set u : Sock := { s with pcb := { s.pcb with lseq := b.addr }, net := s.net.reference b.id } with hu
  set c : Buf := { b with ttl := s.opts.txTimeoutMs.toUInt16 } with hc
  rcases lt_or_ge c.room (Flags.headlen { psh := true }) with h | h
  · rw [sendDo_noRoom h]
    exact ⟨⟨rfl, rfl, rfl, rfl⟩, rfl, rfl, rfl, rfl, rfl, [], (append_nil _).symm, by simp⟩
  · rw [sendDo_sends h]
    refine ⟨⟨rfl, rfl, rfl, rfl⟩, rfl, rfl, rfl, rfl, rfl, [u.built c { psh := true }], rfl, fun e he => ?_⟩
    rw [mem_singleton.mp he]
    exact ⟨b, mem_singleton_self b, rfl, rfl, rfl⟩

theorem flushOut_not_open (s : Sock) : ¬ s.flushOut.Open := by
  unfold flushOut
  set u := (({ s with
    net := s.net.freeList s.outq
    outq := []
    pcb := { s.pcb with lseq := s.pcb.ackedLseq, txRetry := 3 } } : Sock).sendflags { fin := true }).2
  set v : Sock := { u with pcb := { u.pcb with
    lseq := u.pcb.lseq + 1
    state := if u.pcb.rclose then .lastAck else .finWait1
    lclose := true } } with hv
  have hst : (v.postTx .timeout).pcb.state = if u.pcb.rclose then .lastAck else .finWait1 := by
    rcases (postTx_reacts v .timeout).state with h | ⟨-, h⟩
    · exact h
    · exact h
  unfold Open
  rw [hst]
  split_ifs <;> decide

/-- **The walk over the output queue** leaves every segment in place, unless the queue is given up. -/
theorem tickLoop_spec : ∀ (rest done : List Buf) (s : Sock),
    ((tickLoop done rest s).2 = true ∧ ¬ (tickLoop done rest s).1.Open) ∨
    ((tickLoop done rest s).2 = false ∧ Resent rest s (tickLoop done rest s).1 ∧
      ∃ q, (tickLoop done rest s).1.outq = done ++ q ∧ List.Forall₂ Copy rest q)
  | [], done, s => .inr ⟨rfl, ⟨rfl, rfl, rfl, rfl, rfl, [], (append_nil _).symm, by simp⟩, [], by simp [tickLoop], .nil⟩
  | b :: rest, done, s => by
    have hcons : ∀ (b' : Buf) (s' : Sock), Copy b b' → Resent (b :: rest) s s' →
        ((tickLoop (done ++ [b']) rest s').2 = true ∧ ¬ (tickLoop (done ++ [b']) rest s').1.Open) ∨
        ((tickLoop (done ++ [b']) rest s').2 = false ∧ Resent (b :: rest) s (tickLoop (done ++ [b']) rest s').1 ∧
          ∃ q, (tickLoop (done ++ [b']) rest s').1.outq = done ++ q ∧ List.Forall₂ Copy (b :: rest) q) := by
      intro b' s' hcopy hres
      rcases tickLoop_spec rest (done ++ [b']) s' with h | ⟨h1, h2, q, h3, h4⟩
      · exact .inl h
      · refine .inr ⟨h1, hres.trans (h2.mono fun c hc => ⟨c, mem_cons_of_mem b hc, rfl, rfl, rfl, rfl⟩), b' :: q, ?_,
          .cons hcopy h4⟩
        rw [h3, append_assoc]
        rfl
    unfold tickLoop
    by_cases httl : b.ttl - 1 ≠ 0
    · rw [if_pos httl]
      exact hcons _ s ⟨rfl, rfl, rfl, rfl⟩ (.refl _ s)
    rw [if_neg httl]
    set b₁ : Buf := { b with ttl := b.ttl - 1, retry := if b.retry = 0 then 0 else b.retry - 1 } with hb₁
    by_cases hretry : (b.retry = 0 ∨ b₁.retry ≠ 0) ∧ s.pcb.state ≠ .closeWait
    · rw [if_pos hretry]
      obtain ⟨h1, h2⟩ := resend_spec s b₁
      have hcopy : Copy b b₁ := ⟨rfl, rfl, rfl, rfl⟩
      refine hcons _ _ (hcopy.trans h1) (h2.mono fun c hc => ?_)
      rw [mem_singleton.mp hc]
      exact ⟨b, mem_cons_self, rfl, rfl, rfl, rfl⟩
    · rw [if_neg hretry]
      exact .inl ⟨rfl, flushOut_not_open _⟩

theorem exists_copy : ∀ {q q' : List Buf} {b' : Buf}, List.Forall₂ Copy q q' → b' ∈ q' → ∃ b ∈ q, Copy b b'
  | _, _, _, .nil, h => by cases h
  | _, _, _, .cons hc hq, h => by
    rcases mem_cons.mp h with rfl | h
    · exact ⟨_, mem_cons_self, hc⟩
    · obtain ⟨b, hb, hcopy⟩ := exists_copy hq h
      exact ⟨b, mem_cons_of_mem _ hb, hcopy⟩

theorem Line.copy : ∀ {q q' : List Buf} {x : ℕ}, List.Forall₂ Copy q q' → Line x q y → Line x q' y
  | _, _, _, .nil, h => h
  | _, _, _, .cons hc hq, h => by
    obtain ⟨⟨h1, h2, h3⟩, h4⟩ := h
    refine ⟨⟨by rw [hc.addr]; exact h1, by rw [hc.payload]; exact h2, by rw [hc.room]; exact h3⟩, ?_⟩
    rw [hc.payload]
    exact Line.copy hq h4

theorem Resent.seen_iff (h : Resent q s t) (hq : ∀ b ∈ q, s.seen b.id b.addr b.payload) (i : ℕ)
    (n : UInt32) (p : List UInt8) : t.seen i n p ↔ s.seen i n p := by
  obtain ⟨es, hes, hcopy⟩ := h.sent
  constructor
  · rintro ⟨hp, e, he, h1, h2, h3⟩
    rw [hes] at he
    rcases mem_append.mp he with he | he
    · exact ⟨hp, e, he, h1, h2, h3⟩
    · obtain ⟨b, hb, h4, h5, h6⟩ := hcopy e he
      have hseen := hq b hb
      rwa [← h4, ← h5, ← h6, h1, h2, h3] at hseen
  · rintro ⟨hp, e, he, h⟩
    exact ⟨hp, e, by rw [hes]; exact mem_append_left es he, h⟩

theorem Resent.sends (hr : Resent s.outq s t) (hcopy : List.Forall₂ Copy s.outq t.outq) (h : Sends x st a s) :
    Sends x st a t := by
  have hseen := hr.seen_iff h.ledger.queued
  refine ⟨?_, hr.quiet.trans h.quiet, hr.state.trans h.state, hr.ackedLseq.trans h.ackedLseq, ?_, ?_⟩
  · rw [hr.lseq]
    exact Line.copy hcopy h.line
  · refine ⟨fun i n p hp => ?_, fun i n p i' n' p' hp hp' => ?_, fun b hb => ?_⟩
    · rw [hr.lseq]
      exact h.ledger.below i n p ((hseen i n p).mp hp)
    · exact h.ledger.apart i n p i' n' p' ((hseen i n p).mp hp) ((hseen i' n' p').mp hp')
    · obtain ⟨b', hb', hc⟩ := exists_copy hcopy hb
      rw [hc.id, hc.addr, hc.payload]
      exact (hseen _ _ _).mpr (h.ledger.queued b' hb')
  · unfold CallsOk
    rw [hr.env]
    exact h.calls

/-- What a tick sends: flags, and copies of queued segments. -/
def Repeats (s s' : Sock) : Prop := ∃ es, s'.log.sent = s.log.sent ++ es ∧ ∀ e ∈ es, e.payload ≠ [] →
  ∃ b ∈ s.outq, e.id = b.id ∧ e.head.seq = b.addr ∧ e.payload = b.payload

theorem tickAck_sends (h : Sends x st a s) : Sends x st a s.tickAck := by
  unfold tickAck
  dsimp only
  split_ifs
  · have h1 : Sends x st a { s with pcb := { s.pcb with ackTick := s.pcb.ackTick - 1 } } :=
      h.sameLog rfl rfl rfl rfl rfl rfl rfl
    exact (h1.flags (f := { ack := true }) ⟨rfl, rfl⟩).sameLog rfl rfl rfl rfl rfl rfl rfl
  · exact h.sameLog rfl rfl rfl rfl rfl rfl rfl
  · exact h

theorem tickAck_sent (s : Sock) : ∃ es, s.tickAck.log.sent = s.log.sent ++ es ∧ ∀ e ∈ es, e.payload = [] := by
  unfold tickAck
  dsimp only
  split_ifs
  · obtain ⟨es, hes, hnil⟩ := sendflags_sent { s with pcb := { s.pcb with ackTick := s.pcb.ackTick - 1 } } { ack := true }
    exact ⟨es, hes, fun e he => (hnil e he).2⟩
  · exact ⟨[], (append_nil _).symm, by simp⟩
  · exact ⟨[], (append_nil _).symm, by simp⟩

/-- The reader's timeout: the tick wakes it and ends, or only counts. -/
theorem tickRx_cases (s : Sock) : (s.pcb.rxTimeoutMs = 1 ∧ ∃ u : Sock, s.tickRx = (u.postRx .timeout, true) ∧
      u.outq = s.outq ∧ u.env = s.env ∧ u.log = s.log ∧ ∃ n, u.pcb = { s.pcb with rxTimeoutMs := n }) ∨
    ∃ n, s.tickRx = ({ s with pcb := { s.pcb with rxTimeoutMs := n } }, false) := by
  unfold tickRx
  dsimp only
  split_ifs with h1 h2
  · refine .inl ⟨sub_eq_zero.mp h2, _, rfl, rfl, rfl, rfl, s.pcb.rxTimeoutMs - 1, rfl⟩
  · exact .inr ⟨s.pcb.rxTimeoutMs - 1, rfl⟩
  · exact .inr ⟨s.pcb.rxTimeoutMs, rfl⟩

/-- **A tick keeps the line**, and sends again only what is queued. -/
theorem tick_sends (h : Sends x st a s) (hopen : s.tick.Open) (hw : NoWrap s.tick) :
    Sends x st a s.tick ∧ (s.pcb.rxTimeoutMs ≠ 1 → Repeats s s.tick) := by
  have hcheck : Sends x st a s.checkBuff := h.sameLog rfl rfl rfl rfl rfl rfl rfl
  have htx : s.checkBuff.tickTx = (s.checkBuff, false) := if_neg (by rw [hcheck.quiet]; decide)
  have htick : s.tick = if s.checkBuff.tickRx.2 then s.checkBuff.tickRx.1 else
      if (tickLoop [] s.checkBuff.tickRx.1.outq s.checkBuff.tickRx.1).2 then
        (tickLoop [] s.checkBuff.tickRx.1.outq s.checkBuff.tickRx.1).1
      else (tickLoop [] s.checkBuff.tickRx.1.outq s.checkBuff.tickRx.1).1.tickAck := by
    unfold tick socketTick
    rw [htx]
    rfl
  rcases tickRx_cases s.checkBuff with ⟨hone, u, hu, ho, he, hl, n, hp⟩ | ⟨n, hrx⟩
  · rw [hu, if_pos rfl] at htick
    rw [htick] at hw ⊢
    refine ⟨postRx_sends (hcheck.sameLog ho ?_ ?_ ?_ ?_ he ?_) hw, fun hne => absurd hone hne⟩
    · rw [hp]
    · rw [hp]
    · rw [hp]
    · rw [hp]
    · rw [hl]
  · set u : Sock := { s.checkBuff with pcb := { s.checkBuff.pcb with rxTimeoutMs := n } } with hu
    have husends : Sends x st a u := hcheck.sameLog rfl rfl rfl rfl rfl rfl rfl
    rw [hrx, if_neg Bool.false_ne_true] at htick
    rcases tickLoop_spec u.outq [] u with ⟨h1, h2⟩ | ⟨h1, hres, q, h3, h4⟩
    · rw [if_pos h1] at htick
      rw [htick] at hopen
      exact absurd hopen h2
    · rw [if_neg (by rw [h1]; decide)] at htick
      rw [htick]
      rw [nil_append] at h3
      have hloop : Sends x st a (tickLoop [] u.outq u).1 := hres.sends (by rw [h3]; exact h4) husends
      refine ⟨tickAck_sends hloop, fun _ => ?_⟩
      obtain ⟨es, hes, hcopy⟩ := hres.sent
      obtain ⟨es', hes', hnil⟩ := tickAck_sent (tickLoop [] u.outq u).1
      refine ⟨es ++ es', by rw [hes', hes, append_assoc]; rfl, fun e he hne => ?_⟩
      rcases mem_append.mp he with he | he
      · exact hcopy e he
      · exact absurd (hnil e he) hne

/-! ### Whole runs -/

theorem Fresh.sends (h : Fresh s) : Sends s.pcb.ackedLseq.toNat s.pcb.state s.pcb.ackedLseq s := by
  have hnone : ∀ i n p, ¬ s.seen i n p := by
    rintro i n p ⟨hp, e, he, -, -, h3⟩
    exact hp (h3.symm.trans (h.sent e he))
  refine ⟨?_, h.quiet, rfl, rfl, ⟨fun i n p hp => absurd hp (hnone i n p),
    fun i n p _ _ _ hp => absurd hp (hnone i n p), ?_⟩, h.calls⟩
  · rw [h.outq, h.lseq]
    rfl
  · rw [h.outq]
    simp

theorem step_sends {act : Act} (hopen : s.Open) (h : Sends s.pcb.ackedLseq.toNat s.pcb.state s.pcb.ackedLseq s)
    (hst : sending.step s act t) : t.Open ∧ Sends t.pcb.ackedLseq.toNat t.pcb.state t.pcb.ackedLseq t := by
  obtain ⟨hact, hallowed, hopen', hw⟩ := hst
  refine ⟨hopen', ?_⟩
  cases act with
  | input seg => exact input_sends h hopen hallowed hopen' hw hact
  | tick =>
    have hact : s.tick = t := some.inj hact
    rw [← hact] at hopen' hw ⊢
    have hs := (tick_sends h hopen' hw).1
    rw [hs.ackedLseq, hs.state]
    exact hs
  | call c =>
    have hact : s.exec c = t := some.inj hact
    rw [← hact] at hw ⊢
    have hs := exec_sends h hallowed hw
    rw [hs.ackedLseq, hs.state]
    exact hs

/-- **The output queue is contiguous** in every open connection: from `acked_lseq` to `lseq`, of what was
sent, segments the same or apart; a tick sends only copies of it (unless it only wakes the reader). -/
theorem chained_reach {s : Sock} (h : sending.Reach s) :
    Contiguous s.pcb.ackedLseq s.outq s.pcb.lseq ∧ s.Ledger ∧
    ∀ s', sending.step s .tick s' → s.pcb.rxTimeoutMs ≠ 1 → Repeats s s' := by
  have hinv := h.invariant (P := fun s => s.Open ∧ Sends s.pcb.ackedLseq.toNat s.pcb.state s.pcb.ackedLseq s)
    (fun s h => ⟨h.opened, h.sends⟩) (fun s a s' _ hs hst => step_sends hs.1 hs.2 hst)
  refine ⟨hinv.2.line.contiguous, hinv.2.ledger, fun s' hst hne => ?_⟩
  obtain ⟨hact, -, hopen', hw⟩ := hst
  have hact : s.tick = s' := some.inj hact
  rw [← hact] at hopen' hw ⊢
  exact (tick_sends hinv.2 hopen' hw).2 hne

/-- Two bytes are sent. -/
theorem chained_reach_twoBytes : ∃ s, sending.Reach s ∧ s.outq ≠ [] ∧
    Contiguous s.pcb.ackedLseq s.outq s.pcb.lseq := by
  have hfresh : Fresh (opened 1000 500) :=
    ⟨.inl rfl, rfl, rfl, rfl, by simp [opened, Sock.new], by simp [CallsOk, opened, Sock.new]⟩
  have hsend : sending.step (opened 1000 500) (.call (.asyncSend (.plain 7 [1, 2] (by decide))))
      ((opened 1000 500).asyncSend (.plain 7 [1, 2] (by decide))).2 :=
    ⟨rfl, ⟨by decide, by decide⟩, .inl (by decide), by unfold NoWrap; decide⟩
  have hreach : sending.Reach ((opened 1000 500).asyncSend (.plain 7 [1, 2] (by decide))).2 := .step (.start hfresh) hsend
  exact ⟨_, hreach, by decide, (chained_reach hreach).1⟩

end Sock
end Tcp
end Vsf
