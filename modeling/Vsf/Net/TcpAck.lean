/-
# TCP connections: acknowledgements

An acknowledgement in `(una, lseq]` should take the segments off the output queue that end at or
before it, and any other should change nothing. The code takes every one but the last, and compares
sequence numbers as plain numbers; `acks_iff` says exactly when that is right.
-/
import Mathlib
import Vsf.Net.TcpRuns

namespace Vsf
namespace Tcp

open List

/-- Where a segment ends. -/
def segEnd (b : Buf) : UInt32 := b.addr + b.size

namespace Sock

/-- The connection when a segment's acknowledgement is looked at, after its data. -/
def atAck (s : Sock) (seg : Seg) : Sock :=
  let s := { s with pcb := { s.pcb with rwnd := seg.windowSize.toUInt32 } }
  if s.pcb.state = .established then
    let s := s.look
    if seg.buf.size > 0 then
      if s.pcb.rseq = seg.seq then (s.dataInput seg).postRx .rxok else (s.sendflags { ack := true }).2
    else s
  else s

/-- `a` is in `(una, lseq]`. -/
def InWindow (u : Sock) (a : UInt32) : Prop :=
  0 < a - u.pcb.ackedLseq ∧ a - u.pcb.ackedLseq ≤ u.pcb.lseq - u.pcb.ackedLseq

instance (u : Sock) (a : UInt32) : Decidable (u.InWindow a) := instDecidableAnd

/-- A segment ends at or before `a`, counted from `una`. -/
def ends (u : Sock) (a : UInt32) (b : Buf) : Bool := segEnd b - u.pcb.ackedLseq ≤ a - u.pcb.ackedLseq

/-- `q` was taken off the output queue; of what was sent meanwhile something goes only after all the rest. -/
def Removed (u t : Sock) (q : List Buf) : Prop := ∃ more new,
  t.log.acked = u.log.acked ++ (q ++ more) ∧ t.outq = u.outq.drop q.length ++ new ∧ (more = [] ∨ q = u.outq)

/-- What is asked of an acknowledgement `a`. -/
def Acks (u : Sock) (a : UInt32) (t : Sock) : Prop :=
  if u.InWindow a then t.pcb.ackedLseq = a ∧ Removed u t (u.outq.takeWhile (u.ends a))
  else t.pcb.ackedLseq = u.pcb.ackedLseq ∧ Removed u t []

/-- Up to the first not acknowledged, ends have wrapped since `una` just when `a` has. -/
def SameSide (u : Sock) (a : UInt32) : List Buf → Prop
  | [] => True
  | b :: q => (segEnd b < u.pcb.ackedLseq ↔ a < u.pcb.ackedLseq) ∧ (u.ends a b = true → SameSide u a q)

instance decidableSameSide (u : Sock) (a : UInt32) : ∀ q, Decidable (SameSide u a q)
  | [] => .isTrue trivial
  | b :: q =>
    have := decidableSameSide u a q
    inferInstanceAs (Decidable ((segEnd b < u.pcb.ackedLseq ↔ a < u.pcb.ackedLseq) ∧
      (u.ends a b = true → SameSide u a q)))

/-! ### Orders -/

/-- Plain order and order from `u` agree on two numbers exactly when both or none have wrapped. -/
theorem le_iff_sub_le_iff (u x a : UInt32) : (x ≤ a ↔ x - u ≤ a - u) ↔ (x < u ↔ a < u) := by
  have hx := x.toNat_lt
  have ha := a.toNat_lt
  simp only [UInt32.le_iff_toNat_le, UInt32.lt_iff_toNat_lt, UInt32.toNat_sub]
  omega

theorem takeWhile_eq_iff (u : Sock) (a : UInt32) : ∀ q : List Buf,
    q.takeWhile (fun b => decide (a ≥ segEnd b)) = q.takeWhile (u.ends a) ↔ SameSide u a q
  | [] => by simp [SameSide]
  | b :: q => by
    have hside := le_iff_sub_le_iff u.pcb.ackedLseq (segEnd b) a
    have ih := takeWhile_eq_iff u a q
    rw [takeWhile_cons, takeWhile_cons]
    by_cases hp : segEnd b ≤ a <;> by_cases hs : segEnd b - u.pcb.ackedLseq ≤ a - u.pcb.ackedLseq
    · simp [SameSide, ends, hp, hs, ← hside]
      exact ih
    · simp [SameSide, ends, hp, hs, ← hside]
    · simp [SameSide, ends, hp, hs, ← hside]
    · simp [SameSide, ends, hp, hs, ← hside]

/-! ### The queue -/

variable {s t t' u : Sock} {seg : Seg} {l : Frame} {q q' : List Buf} {a : UInt32}

theorem Removed.unique (hq : q <+: u.outq) (hq' : q' <+: u.outq) (h : Removed u t q) (h' : Removed u t q') : q = q' := by
  obtain ⟨more, new, h1, -, h3⟩ := h
  obtain ⟨more', new', h1', -, h3'⟩ := h'
  have heq : q ++ more = q' ++ more' := append_cancel_left (h1.symm.trans h1')
  rcases h3 with rfl | rfl <;> rcases h3' with rfl | rfl
  · simpa using heq
  · rw [append_nil] at heq
    rw [heq] at hq
    have hlen := hq.length_le
    rw [length_append] at hlen
    rw [heq, eq_nil_of_length_eq_zero (l := more') (by omega), append_nil]
  · rw [append_nil] at heq
    rw [← heq] at hq'
    have hlen := hq'.length_le
    rw [length_append] at hlen
    rw [← heq, eq_nil_of_length_eq_zero (l := more) (by omega), append_nil]
  · rfl

theorem Removed.append (h : Removed u t q) (hacked : t'.log.acked = t.log.acked) (hout : ∃ n, t'.outq = t.outq ++ n) :
    Removed u t' q := by
  obtain ⟨more, new, h1, h2, h3⟩ := h
  obtain ⟨n, hn⟩ := hout
  exact ⟨more, new ++ n, hacked.trans h1, by rw [hn, h2, append_assoc], h3⟩

theorem Removed.cons {p : Buf → Bool} {b : Buf} {q n : List Buf} (hs : s.outq = b :: q)
    (hacked : u.log.acked = s.log.acked ++ [b]) (hout : u.outq = q ++ n)
    (h : Removed u t (u.outq.takeWhile p)) : Removed s t (b :: q.takeWhile p) := by
  obtain ⟨more, new, h1, h2, h3⟩ := h
  rw [hacked, append_assoc, hout] at h1
  rw [hout] at h2 h3
  rw [takeWhile_append] at h1 h2 h3
  by_cases hall : (q.takeWhile p).length = q.length
  · have htw : q.takeWhile p = q := (List.takeWhile_prefix p).eq_of_length hall
    rw [if_pos hall] at h1 h2 h3
    refine ⟨n.takeWhile p ++ more, t.outq, ?_, ?_, .inr (by rw [htw, hs])⟩
    · rw [h1, htw]
      simp
    · rw [hs, htw]
      simp
  · rw [if_neg hall] at h1 h2 h3
    have hmore : more = [] := by
      refine h3.resolve_right fun h => hall ?_
      have hlen := congrArg List.length h
      rw [length_append] at hlen
      have hle := (List.takeWhile_prefix (l := q) p).length_le
      omega
    refine ⟨[], n ++ new, ?_, ?_, .inl rfl⟩
    · rw [h1, hmore]
      simp
    · have hle := (List.takeWhile_prefix (l := q) p).length_le
      rw [h2, hs, drop_append_of_le_length hle]
      simp

/-- **The loop takes the leading segments that end at or before `acked_lseq`, as
plain numbers.** -/
theorem ackLoop_removed : ∀ (f : ℕ) (s : Sock), s.pending < f →
    (ackLoop f s).pcb.ackedLseq = s.pcb.ackedLseq ∧
    Removed s (ackLoop f s) (s.outq.takeWhile fun b => decide (s.pcb.ackedLseq ≥ segEnd b))
  | 0, _, h => absurd h (Nat.not_lt_zero _)
  | f + 1, s, hf => by
    have hnone : ∀ t : Sock, t = s → t.pcb.ackedLseq = s.pcb.ackedLseq ∧ Removed s t [] := by
      rintro t rfl
      exact ⟨rfl, [], [], by simp, by simp, .inl rfl⟩
    unfold ackLoop
    cases hq : s.outq with
    | nil => exact hnone s rfl
    | cons b q =>
      dsimp only
      by_cases hb : s.pcb.ackedLseq ≥ b.addr + b.size
      · have htw : (b :: q).takeWhile (fun b => decide (s.pcb.ackedLseq ≥ segEnd b)) =
            b :: q.takeWhile fun b => decide (s.pcb.ackedLseq ≥ segEnd b) :=
          takeWhile_cons_of_pos (by exact decide_eq_true hb)
        have hr := ackOne_reacts s b q
        obtain ⟨n, hn⟩ := hr.outq
        have hacked : (s.ackOne b q).pcb.ackedLseq = s.pcb.ackedLseq := hr.ackedLseq
        obtain ⟨h1, h2⟩ := ackLoop_removed f (s.ackOne b q) (by have := ackOne_pending hq; omega)
        rw [hacked] at h1 h2
        rw [if_pos hb, htw]
        exact ⟨h1, Removed.cons hq hr.acked hn h2⟩
      · rw [if_neg hb, takeWhile_cons_of_neg (by simpa [segEnd] using hb)]
        exact hnone s rfl

/-! ### The rest of the segment -/

/-- After it only the user adds to the output, and only the same is taken again. -/
structure Adds (a : UInt32) (u t : Sock) : Prop where
  outq : ∃ n, t.outq = u.outq ++ n
  acked : t.log.acked = u.log.acked
  ackedLseq : t.pcb.ackedLseq = u.pcb.ackedLseq ∨ t.pcb.ackedLseq = a

theorem Adds.congr (h : Adds a u t) (hout : t'.outq = t.outq) (hacked : t'.log.acked = t.log.acked)
    (hlseq : t'.pcb.ackedLseq = t.pcb.ackedLseq) : Adds a u t' :=
  ⟨by rw [hout]; exact h.outq, hacked.trans h.acked, by rw [hlseq]; exact h.ackedLseq⟩

theorem Adds.reacts (h : Adds a u t) (hr : Reacts t t') : Adds a u t' := by
  obtain ⟨n, hn⟩ := h.outq
  obtain ⟨n', hn'⟩ := hr.outq
  exact ⟨⟨n ++ n', by rw [hn', hn, append_assoc]⟩, hr.acked.trans h.acked, by rw [hr.ackedLseq]; exact h.ackedLseq⟩

theorem Adds.refl (a : UInt32) (u : Sock) : Adds a u u := ⟨⟨[], by simp⟩, rfl, .inl rfl⟩

theorem adds_kept (u : Sock) : KeptTail (Adds seg.ackseq u) seg where
  drop t h := h.congr rfl rfl rfl
  look t h := h.congr rfl rfl rfl
  flags t f h _ := h.congr (by simp) (by simp) (by simp)
  postTx t evt h _ := h.reacts (postTx_reacts t evt)
  postRx t evt h _ := h.reacts (postRx_reacts t evt)
  discard t h _ _ _ := h.congr rfl rfl rfl
  fin t h _ _ _ _ := h.congr (by simp [passiveClose]) (by simp [passiveClose]) (by simp [passiveClose])
  finAcked t h _ _ ha := ⟨h.outq, h.acked, .inr ha.symm⟩
  finWait2 t h _ := h.congr rfl rfl rfl
  closed t h _ := h.congr rfl rfl rfl

theorem closeWait_adds (hl : Frame.Of l seg) (hack : seg.flags.ack = true) (hpre : l.pre = s.pcb.state)
    (hst : s.pcb.state = .established ∨ s.pcb.state = .closeWait) :
    Adds seg.ackseq (if seg.ackseq ≠ s.pcb.ackedLseq then s.ackInput seg.ackseq else s) (closeWait l seg s).1 := by
  have hlack : l.flags.ack = true := hl.ack.trans hack
  unfold closeWait
  dsimp only
  by_cases hne : seg.ackseq ≠ s.pcb.ackedLseq
  · rw [if_pos hne, if_pos ⟨hlack, hne⟩]
    have h1 := (Adds.refl seg.ackseq (s.ackInput seg.ackseq)).reacts (postTx_reacts _ .txok)
    split_ifs with heq
    · exact h1
    · refine finPart_kept (adds_kept _) hl ?_ h1
      rw [not_not.mp heq, hpre]
      exact hst
  · rw [if_neg hne, if_neg fun h => hne h.2]
    exact finPart_kept (adds_kept _) hl hst (Adds.refl _ s)

theorem pass_adds (hl : Frame.Of l seg) (hc : s.Closing) : Adds seg.ackseq s (pass l seg s).1 := by
  unfold pass
  rcases hc with h | h <;> rw [h]
  · exact finWait1_kept (adds_kept s) hl h (Adds.refl _ s)
  · exact lastAck_kept (adds_kept s) hl h (Adds.refl _ s)

theorem Adds.trans (h : Adds a u t) (h' : Adds a t t') : Adds a u t' := by
  obtain ⟨n, hn⟩ := h.outq
  obtain ⟨n', hn'⟩ := h'.outq
  refine ⟨⟨n ++ n', by rw [hn', hn, append_assoc]⟩, h'.acked.trans h.acked, ?_⟩
  rcases h'.ackedLseq with h1 | h1
  · rw [h1]
    exact h.ackedLseq
  · exact .inr h1

theorem pass_atAck (hst : s.pcb.state = .established ∨ s.pcb.state = .closeWait)
    (hu : (s.atAck seg).pcb.state = s.pcb.state) : ∃ l, Frame.Of l seg ∧ l.pre = (s.atAck seg).pcb.state ∧
    pass ⟨seg.flags, true, s.pcb.state⟩ seg { s with pcb := { s.pcb with rwnd := seg.windowSize.toUInt32 } } =
      closeWait l seg (s.atAck seg) := by
  rcases hst with hst | hst
  · set v : Sock := { s with pcb := { s.pcb with rwnd := seg.windowSize.toUInt32 } } with hv
    have hvst : v.pcb.state = .established := hst
    have hat : s.atAck seg = if seg.buf.size > 0 then
        if v.look.pcb.rseq = seg.seq then (v.look.dataInput seg).postRx .rxok else (v.look.sendflags { ack := true }).2
      else v.look := if_pos hst
    have hpass : pass ⟨seg.flags, true, s.pcb.state⟩ seg v = established ⟨seg.flags, true, .established⟩ seg v := by
      rw [pass, hvst]
    rw [hst] at hu
    rw [hpass]
    unfold established
    rw [hat] at hu ⊢
    by_cases hz : seg.buf.size > 0
    · rw [if_pos hz] at hu ⊢
      by_cases hq : v.look.pcb.rseq = seg.seq
      · rw [if_pos hq] at hu ⊢
        refine ⟨⟨seg.flags, false, .established⟩, ⟨id, rfl⟩, hu.symm, ?_⟩
        rw [if_pos hz, if_pos hq, if_neg (not_not.mpr hu)]
      · rw [if_neg hq] at hu ⊢
        refine ⟨⟨seg.flags, true, .established⟩, ⟨id, rfl⟩, hu.symm, ?_⟩
        rw [if_pos hz, if_neg hq]
    · rw [if_neg hz] at hu ⊢
      refine ⟨⟨seg.flags, true, .established⟩, ⟨id, rfl⟩, hu.symm, ?_⟩
      rw [if_neg hz]
  · have hat : s.atAck seg = { s with pcb := { s.pcb with rwnd := seg.windowSize.toUInt32 } } :=
      if_neg (by rw [show ({ s.pcb with rwnd := seg.windowSize.toUInt32 } : Pcb).state = s.pcb.state from rfl, hst]; decide)
    refine ⟨⟨seg.flags, true, s.pcb.state⟩, ⟨id, rfl⟩, hu.symm, ?_⟩
    rw [hat, pass]
    rw [hst]

/-- What a segment does to the acknowledged data: at `atAck`, what the loop does. -/
theorem input_adds (hst : s.pcb.state = .established ∨ s.pcb.state = .closeWait) (hlisten : s.listener.backlog = 0)
    (hrst : seg.flags.rst = false) (hack : seg.flags.ack = true) (hu : (s.atAck seg).pcb.state = s.pcb.state)
    (h : s.input seg = some t) :
    Adds seg.ackseq (if seg.ackseq ≠ (s.atAck seg).pcb.ackedLseq then (s.atAck seg).ackInput seg.ackseq
      else s.atAck seg) t := by
  obtain ⟨l, hl, hpre, hpass⟩ := pass_atAck hst hu
  have hadds := closeWait_adds hl hack hpre (by rw [hu]; exact hst)
  rw [input_eq, Option.some.injEq, if_neg (by rw [hlisten]; simp), if_neg (by rw [hrst]; decide)] at h
  unfold passes at h
  dsimp only at h
  rw [hpass] at h
  cases hp : closeWait l seg (s.atAck seg) with
  | mk s₁ o =>
    rw [hp] at h hadds
    cases o with
    | none =>
      rw [← h]
      exact hadds
    | some l₁ =>
      have hl₁ : Frame.Of l₁ seg := by
        rcases (closeWait_frame hp).1 with h | h
        · exact ⟨by rw [h]; exact hl.fin, by rw [h]; exact hl.ack⟩
        · exact ⟨by simp [h], by rw [h]; exact hl.ack⟩
      rw [← h]
      exact hadds.trans (pass_adds hl₁ (closeWait_again hpre hp))

/-- A connection that sent two bytes from `lseq` on. -/
def spoke (lseq : UInt32) : Sock := ((opened lseq 500).asyncSend (.plain 7 [1, 2] (by decide))).2

end Sock
end Tcp
end Vsf
