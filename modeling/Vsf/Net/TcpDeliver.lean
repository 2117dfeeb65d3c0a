/-
# TCP connections: what becomes of received data

Acknowledged data waits in `inq` until the user takes it, or a tick, when its ten ticks have run
out. Nothing else is lost while the connection is neither reset nor freed (`Sock.held_run`). What
the ticks remove, and when each buffer was queued, is kept in the states of `timed`.
-/
import Mathlib
import Vsf.Net.TcpRuns

namespace Vsf

open List Option

/-- A list made of two others, each in its order. -/
inductive Interleaved {α : Type*} : List α → List α → List α → Prop
  | nil : Interleaved [] [] []
  | left {xs ys zs : List α} (us : List α) : Interleaved xs ys zs → Interleaved (xs ++ us) ys (zs ++ us)
  | right {xs ys zs : List α} (us : List α) : Interleaved xs ys zs → Interleaved xs (ys ++ us) (zs ++ us)

namespace Tcp

/-- A tick finds the time to live of a buffer run out. -/
def expires (b : Buf) : Bool := b.ttl = 0 ∨ b.ttl - 1 = 0

/-- What the ticks have removed, each buffer with the ticks it was queued for; the ticks so far; and the tick
each buffer ever queued came at. -/
structure Ledger where
  gone : List (Buf × ℕ)
  clock : ℕ
  born : List ℕ

/-- How much data was queued so far. -/
def queued (s : Sock) : ℕ := (s.log.accepted.filter (·.delivered)).length

/-- When the buffers still in the queue came, oldest first. -/
def Ledger.stamps (l : Ledger) (s : Sock) : List ℕ := l.born.drop (l.born.length - s.inq.length)

/-- The entries a tick makes. -/
def Ledger.tick (l : Ledger) (s : Sock) : Ledger where
  gone := l.gone ++ ((s.inq.zip (l.stamps s)).filter fun p => expires p.1).map fun p => (p.1, l.clock + 1 - p.2)
  clock := l.clock + 1
  born := l.born

/-- Data that is queued in a step gets the tick it came at. -/
def Ledger.after (l : Ledger) (a : Act) (s s' : Sock) : Ledger :=
  let l := match a with
    | .tick => l.tick s
    | _ => l
  { l with born := l.born ++ replicate (queued s' - queued s) l.clock }

/-- A connection with its ledger. -/
def timed : System (Sock × Ledger) Act where
  start _ := True
  step s a s' := s.1.act a = some s'.1 ∧ s'.2 = s.2.after a s.1 s'.1

namespace Sock

/-- The payload handed over so far, in order, and then what is queued. -/
def Delivered (s : Sock) (gone : List Buf) : Prop := ∃ taken,
  (s.log.accepted.filter (·.delivered)).map (·.payload) = taken ++ s.inq.map (·.payload) ∧
  Interleaved (s.log.received.map (·.payload)) (gone.map (·.payload)) taken

/-- The socket was not freed, and there is no RST: a reset drops everything. -/
def Live (s : Sock × Ledger) (a : Act) : Prop := s.1.freed = false ∧ match a with
  | .input seg => seg.flags.rst = false
  | _ => True

/-- A buffer that was queued at tick `t`, before its tenth tick since: its time to live is what is left of
them. -/
structure Young (clock t : ℕ) (b : Buf) : Prop where
  past : t ≤ clock
  before : clock < t + 10
  ttl : b.ttl.toNat = 10 - (clock - t)

/-- Without a callback, what is not taken is queued, each buffer for less than ten ticks, or was removed at its
tenth. -/
structure Holds (l : Ledger) (s : Sock) : Prop where
  quiet : s.opts.onInput = false
  given : s.Delivered (l.gone.map Prod.fst)
  tenth : ∀ x ∈ l.gone, x.2 = 10
  /-- `m` of the buffers came in the step that is on its way. -/
  young : ∃ m old ts, queued s = l.born.length + m ∧ l.born ++ replicate m l.clock = old ++ ts ∧
    Forall₂ (Young l.clock) ts s.inq
  sorted : s.inq.Pairwise fun a b => a.ttl.toNat ≤ b.ttl.toNat

variable {s s' : Sock} {seg : Seg} {led : Ledger}

theorem Young.of_mem {c : ℕ} : ∀ {ts : List ℕ} {q : List Buf}, Forall₂ (Young c) ts q → ∀ b ∈ q, ∃ t, Young c t b
  | _, _, .nil, _, hb => absurd hb not_mem_nil
  | t :: _, _ :: _, .cons h hs, b, hb => by
    rcases mem_cons.mp hb with rfl | hb
    · exact ⟨t, h⟩
    · exact of_mem hs b hb

theorem Holds.take (h : Holds led s) (hop : s'.opts = s.opts) (hacc : s'.log.accepted = s.log.accepted)
    (hinq : ∃ q, s.inq = q ++ s'.inq ∧ s'.log.received = s.log.received ++ q) : Holds led s' := by
  obtain ⟨q, h1, h2⟩ := hinq
  obtain ⟨taken, h3, h4⟩ := h.given
  obtain ⟨m, old, ts, h5, h6, h7⟩ := h.young
  refine ⟨by rw [hop]; exact h.quiet, ⟨taken ++ q.map (·.payload), ?_, ?_⟩, h.tenth,
    ⟨m, old ++ ts.take q.length, ts.drop q.length, ?_, ?_, ?_⟩, ?_⟩
  · rw [hacc, h3, h1, map_append, append_assoc]
  · rw [h2, map_append]
    exact .left _ h4
  · rw [queued, hacc]
    exact h5
  · rw [h6, append_assoc, take_append_drop]
  · rw [h1] at h7
    exact forall₂_drop_append _ _ _ h7
  · have hs := h.sorted
    rw [h1] at hs
    exact (pairwise_append.mp hs).2.1

theorem Holds.keeps (h : Holds led s) (hk : Keeps s s') : Holds led s' := h.take hk.opts hk.accepted hk.inq

theorem Holds.congr (h : Holds led s) (hop : s'.opts = s.opts) (hacc : s'.log.accepted = s.log.accepted)
    (hinq : s'.inq = s.inq) (hrec : s'.log.received = s.log.received) : Holds led s' :=
  h.take hop hacc ⟨[], hinq.symm, by rw [hrec, append_nil]⟩

theorem Holds.flags (h : Holds led s) (f : Flags) : Holds led (s.sendflags f).2 :=
  h.congr (by simp) (by simp) (by simp) (by simp)

theorem Holds.dataInput (h : Holds led s) : Holds led (s.dataInput seg) := by
  have hq : s.dataInput seg = { s.count seg with inq := s.inq ++ [{ seg.buf with ttl := 10 }] } :=
    if_neg (by rw [show (s.count seg).opts = s.opts from rfl, h.quiet]; decide)
  have hacc : (s.count seg).log.accepted = s.log.accepted ++ [⟨seg.seq, seg.buf.payload, true⟩] := rfl
  rw [hq]
  obtain ⟨taken, h3, h4⟩ := h.given
  obtain ⟨m, old, ts, h5, h6, h7⟩ := h.young
  refine ⟨h.quiet, ⟨taken, ?_, h4⟩, h.tenth, ⟨m + 1, old, ts ++ [led.clock], ?_, ?_, ?_⟩, ?_⟩
  · rw [hacc, filter_append, map_append, h3]
    simp
  · rw [queued, hacc, filter_append, length_append]
    exact congrArg (· + 1) h5
  · rw [replicate_succ', ← append_assoc, h6, append_assoc]
  · refine rel_append h7 (.cons ⟨le_refl _, by omega, ?_⟩ .nil)
    rw [Nat.sub_self]
    rfl
  · refine pairwise_append.mpr ⟨h.sorted, pairwise_singleton _ _, fun a ha b hb => ?_⟩
    obtain ⟨t, ht⟩ := Young.of_mem h7 a ha
    rw [mem_singleton.mp hb, ht.ttl]
    exact Nat.sub_le _ _

/-- **What a segment does to received data**: it is queued or taken. -/
theorem holds_kept : Kept (Holds led) seg where
  drop s h := h.congr rfl rfl rfl rfl
  look s h := h.congr rfl rfl rfl rfl
  flags s f h _ := h.flags f
  postTx s evt h _ := h.keeps (postTx_reacts s evt).toKeeps
  postRx s evt h _ := h.keeps (postRx_reacts s evt).toKeeps
  data s h _ _ _ := h.dataInput
  discard s h _ _ _ := by
    have hacc : (s.discard seg).log.accepted = s.log.accepted ++ [⟨seg.seq, seg.buf.payload, false⟩] := rfl
    have hdel : (s.discard seg).log.accepted.filter (·.delivered) = s.log.accepted.filter (·.delivered) := by
      rw [hacc, filter_append]
      simp
    obtain ⟨taken, h3, h4⟩ := h.given
    obtain ⟨m, old, ts, h5, h6, h7⟩ := h.young
    refine ⟨h.quiet, ⟨taken, ?_, h4⟩, h.tenth, ⟨m, old, ts, ?_, h6, h7⟩, h.sorted⟩
    · rw [hdel, h3]
      rfl
    · rw [queued, hdel]
      exact h5
  ack s h _ _ _ := h.keeps (ackInput_keeps s _)
  fin s h _ _ _ _ := h.congr (by simp [passiveClose]) (by simp [passiveClose]) (by simp [passiveClose])
    (by simp [passiveClose])
  finAcked s h _ _ _ := h.congr rfl rfl rfl rfl
  finWait2 s h _ := h.congr rfl rfl rfl rfl
  closed s h _ := h.congr rfl rfl rfl rfl

variable {l : Frame}

theorem connected_holds (h : Holds led s) : Holds led (connected l seg s) := by
  unfold connected
  refine Holds.keeps ?_ (postTx_reacts _ _).toKeeps
  split_ifs <;> exact h.congr rfl rfl rfl rfl

theorem synSent_holds (h : Holds led s) : Holds led (synSent l seg s) := by
  unfold synSent
  split_ifs
  · exact h.congr (by simp [drop]) (by simp [drop]) (by simp [drop]) (by simp [drop])
  · apply connected_holds
    apply Holds.flags
    exact h.congr rfl rfl rfl rfl
  · exact h.congr rfl rfl rfl rfl

theorem synGet_holds (h : Holds led s) : Holds led (synGet l seg s) := by
  unfold synGet
  dsimp only
  split_ifs
  · exact h.congr (by simp [drop]) (by simp [drop]) (by simp [drop]) (by simp [drop])
  · exact connected_holds (Holds.dataInput (h.congr rfl rfl rfl rfl))
  · apply connected_holds
    apply Holds.flags
    exact h.congr rfl rfl rfl rfl
  · exact connected_holds (h.congr rfl rfl rfl rfl)
  · exact h.congr (by simp [drop]) (by simp [drop]) (by simp [drop]) (by simp [drop])
  · exact h.congr rfl rfl rfl rfl

theorem listen_holds (h : Holds led s) : Holds led (listen l seg s) := by
  unfold listen
  split_ifs
  · cases s.stack.sockets with
    | zero => exact h.congr rfl rfl rfl rfl
    | succ n => exact h.congr rfl (by simp [drop]) rfl (by simp [drop])
  · exact h.congr rfl rfl rfl rfl

theorem passes_open_holds (h : Holds led s)
    (hst : s.pcb.state = .listen ∨ s.pcb.state = .synSent ∨ s.pcb.state = .synGet) : Holds led (s.passes seg) := by
  rcases hst with hst | hst | hst <;> simp only [passes, pass, hst]
  · exact listen_holds h
  · exact synSent_holds h
  · exact synGet_holds h

theorem input_holds (h : Holds led s) (hrst : seg.flags.rst = false) (hi : s.input seg = some s') : Holds led s' := by
  refine input_kept holds_kept (fun s h => h.congr rfl rfl rfl rfl) ?_ (fun s h hst => passes_open_holds h hst) h hi
  intro hr
  rw [hrst] at hr
  cases hr

/-! ### Ticks -/

theorem expires_iff (b : Buf) : expires b = true ↔ b.ttl.toNat ≤ 1 := by
  have h : b.ttl - 1 = 0 ↔ b.ttl = 1 := by
    rw [sub_eq_zero]
  rw [expires, decide_eq_true_iff, h]
  rw [← UInt16.toNat_inj, ← UInt16.toNat_inj]
  simp only [UInt16.toNat_zero, UInt16.toNat_one]
  omega

/-- One tick older. -/
def aged (b : Buf) : Buf := { b with ttl := b.ttl - 1 }

theorem aged_ttl {b : Buf} (h : expires b = false) : (aged b).ttl.toNat = b.ttl.toNat - 1 := by
  have h2 : ¬ b.ttl.toNat ≤ 1 := by
    rw [← expires_iff, h]
    decide
  have hle : (1 : UInt16) ≤ b.ttl := by
    rw [UInt16.le_iff_toNat_le, UInt16.toNat_one]
    omega
  rw [aged, UInt16.toNat_sub_of_le _ _ hle, UInt16.toNat_one]

theorem checkLoop_eq : ∀ (q : List Buf) (n : Net), (checkLoop q n).1 = (q.filter fun b => !expires b).map aged
  | [], _ => rfl
  | b :: q, n => by
    unfold checkLoop
    by_cases hb : b.ttl = 0 ∨ b.ttl - 1 = 0
    · have he : expires b = true := decide_eq_true hb
      rw [if_pos hb, filter_cons_of_neg (by simp [he])]
      exact checkLoop_eq q _
    · have he : expires b = false := decide_eq_false hb
      rw [if_neg hb, filter_cons_of_pos (by simp [he])]
      show _ :: (checkLoop q n).1 = _
      rw [checkLoop_eq q n]
      rfl

theorem filter_expires : ∀ {q : List Buf}, (q.Pairwise fun a b => a.ttl.toNat ≤ b.ttl.toNat) →
    q = q.filter expires ++ q.filter fun b => !expires b
  | [], _ => rfl
  | b :: q, h => by
    obtain ⟨h1, h2⟩ := pairwise_cons.mp h
    cases hb : expires b with
    | true =>
      rw [filter_cons_of_pos hb, filter_cons_of_neg (by simp [hb]), cons_append]
      exact congrArg _ (filter_expires h2)
    | false =>
      have hnone : (b :: q).filter expires = [] := by
        rw [filter_eq_nil_iff]
        intro c hc hexp
        have hb' : ¬ b.ttl.toNat ≤ 1 := by
          rw [← expires_iff, hb]
          decide
        rcases mem_cons.mp hc with rfl | hc
        · exact hb' ((expires_iff _).mp hexp)
        · exact hb' ((h1 c hc).trans ((expires_iff c).mp hexp))
      have hall : (b :: q).filter (fun b => !expires b) = b :: q := by
        rw [filter_eq_self]
        intro c hc
        have hc := (filter_eq_nil_iff.mp hnone) c hc
        simpa using hc
      rw [hnone, hall, nil_append]

/-- The time to live runs out at the tenth tick. -/
theorem Young.expires_iff {c t : ℕ} {b : Buf} (h : Young c t b) : expires b = true ↔ c + 1 - t = 10 := by
  have h1 := h.past
  have h2 := h.before
  rw [Sock.expires_iff, h.ttl]
  omega

theorem Young.aged {c t : ℕ} {b : Buf} (h : Young c t b) (he : expires b = false) : Young (c + 1) t (aged b) := by
  have hne : ¬ c + 1 - t = 10 := by
    rw [← h.expires_iff, he]
    decide
  have h1 := h.past
  have h2 := h.before
  refine ⟨by omega, by omega, ?_⟩
  rw [aged_ttl he, h.ttl]
  omega

theorem aged_young {c : ℕ} : ∀ {ts : List ℕ} {q : List Buf}, Forall₂ (Young c) ts q →
    (∀ b ∈ q, expires b = false) → Forall₂ (Young (c + 1)) ts (q.map aged)
  | _, _, .nil, _ => .nil
  | _, _, .cons h hs, he =>
    .cons (h.aged (he _ mem_cons_self)) (aged_young hs fun b hb => he b (mem_cons_of_mem _ hb))

theorem stamps_eq {l : Ledger} {s : Sock} {old ts : List ℕ} (hb : l.born = old ++ ts)
    (hy : Forall₂ (Young l.clock) ts s.inq) : l.stamps s = ts := by
  rw [Ledger.stamps, hb, ← hy.length_eq, length_append, Nat.add_sub_cancel, drop_left]

/-- What a tick leaves in the queue, one tick older. -/
theorem checkBuff_holds (h : Holds led s) (hq : queued s = led.born.length) : Holds (led.tick s) s.checkBuff := by
  have hsplit := filter_expires h.sorted
  have hinq : s.checkBuff.inq = (s.inq.filter fun b => !expires b).map aged := checkLoop_eq s.inq s.net
  obtain ⟨taken, h3, h4⟩ := h.given
  obtain ⟨m, old, ts, h5, h6, h7⟩ := h.young
  obtain rfl : m = 0 := by omega
  rw [replicate_zero, append_nil] at h6
  have hstamps : led.stamps s = ts := stamps_eq h6 h7
  have hgone : ((s.inq.zip ts).filter fun p => expires p.1).map Prod.fst = s.inq.filter expires := by
    have hfst : (s.inq.zip ts).map Prod.fst = s.inq := map_fst_zip (le_of_eq h7.length_eq.symm)
    conv_rhs => rw [← hfst]
    rw [List.filter_map]
    rfl
  have hnot : ∀ b ∈ s.inq.filter (fun b => !expires b), expires b = false := fun b hb => by
    simpa using (mem_filter.mp hb).2
  refine ⟨h.quiet, ⟨taken ++ (s.inq.filter expires).map (·.payload), ?_, ?_⟩, ?_, ?_, ?_⟩
  · rw [hinq, List.map_map]
    show (s.log.accepted.filter (·.delivered)).map (·.payload) = _
    rw [h3]
    conv_lhs => rw [hsplit]
    rw [map_append, append_assoc]
    rfl
  · rw [Ledger.tick, hstamps, map_append, List.map_map]
    rw [show (Prod.fst ∘ fun p : Buf × ℕ => (p.1, led.clock + 1 - p.2)) = Prod.fst from rfl, hgone, map_append]
    exact .right _ h4
  · intro x hx
    rw [Ledger.tick, hstamps] at hx
    rcases mem_append.mp hx with hx | hx
    · exact h.tenth x hx
    · obtain ⟨⟨b, t⟩, hp, rfl⟩ := List.mem_map.mp hx
      obtain ⟨hmem, hexp⟩ := mem_filter.mp hp
      have hy : Young led.clock t b := (forall₂_iff_zip.mp h7.flip).2 hmem
      exact hy.expires_iff.mp hexp
  · refine ⟨0, old ++ ts.take (s.inq.filter expires).length, ts.drop (s.inq.filter expires).length, h5, ?_, ?_⟩
    · show led.born ++ [] = _
      rw [append_nil, h6, append_assoc, take_append_drop]
    · rw [hsplit] at h7
      rw [hinq]
      exact aged_young (forall₂_drop_append _ _ _ h7) hnot
  · rw [hinq, pairwise_map]
    refine (h.sorted.sublist filter_sublist).imp_of_mem fun {a b} ha hb hab => ?_
    rw [aged_ttl (hnot a ha), aged_ttl (hnot b hb)]
    omega

theorem tick_holds (h : Holds led s) (hq : queued s = led.born.length) :
    s.tick.freed = true ∨ Holds (led.tick s) s.tick := by
  have hcheck := checkBuff_holds h hq
  have ht := socketTick_ticked s.checkBuff
  rcases ht.inq with hf | ⟨-, hq⟩
  · exact .inl hf
  · exact .inr (hcheck.take ht.opts ht.accepted hq)

/-! ### Whole runs -/

/-- Between steps all that was queued has its entry. -/
def Entered (p : Sock × Ledger) : Prop := Holds p.2 p.1 ∧ queued p.1 = p.2.born.length

theorem Holds.enter (h : Holds led s') (hq : queued s = led.born.length) :
    Entered (s', { led with born := led.born ++ replicate (queued s' - queued s) led.clock }) := by
  obtain ⟨m, old, ts, h1, h2, h3⟩ := h.young
  have hm : queued s' - queued s = m := by omega
  rw [hm]
  refine ⟨⟨h.quiet, h.given, h.tenth, ⟨0, old, ts, ?_, ?_, h3⟩, h.sorted⟩, ?_⟩
  · rw [h1, length_append, length_replicate]
    rfl
  · rw [replicate_zero, append_nil, h2]
  · rw [h1, length_append, length_replicate]

theorem step_holds {led' : Ledger} {a : Act} (h : Entered (s, led))
    (hst : (timed.restrict Live).step (s, led) a (s', led')) : s'.freed = true ∨ Entered (s', led') := by
  obtain ⟨⟨-, hlive⟩, hact, hled⟩ := hst
  have hled : led' = led.after a s s' := hled
  obtain ⟨h, hq⟩ := h
  cases a with
  | input seg =>
    rw [hled]
    exact .inr ((input_holds h hlive hact).enter hq)
  | tick =>
    have hs : s.tick = s' := some.inj hact
    have ht := socketTick_ticked s.checkBuff
    have hsame : queued s' = queued s := by
      rw [← hs]
      exact congrArg (fun l : List Accepted => (l.filter (·.delivered)).length) ht.accepted
    have hled : led' = led.tick s := by
      rw [hled, Ledger.after, hsame, Nat.sub_self, replicate_zero, append_nil]
    rw [hled, ← hs]
    rcases tick_holds h hq with hf | h
    · exact .inl hf
    · refine .inr ⟨h, ?_⟩
      rw [hs, hsame]
      exact hq
  | call c =>
    have hs : s.exec c = s' := some.inj hact
    have h' : Holds led s' := hs ▸ h.keeps (exec_reacts s c).toKeeps
    rw [hled]
    exact .inr (h'.enter hq)

/-- **Acknowledged data is delivered or runs out**: without a callback and a reset, data is what the user
took and ticks removed, in order, then the queue. What ticks removed went at its tenth tick in the queue, and
what is queued has as many ticks to live as are left of its ten. -/
theorem held_run {s₀ s : Sock} {led : Ledger} {acts : List Act} (hquiet : s₀.opts.onInput = false)
    (hinq : s₀.inq = []) (hacc : s₀.log.accepted = []) (hrec : s₀.log.received = [])
    (hrun : (timed.restrict Live).Run (s₀, ⟨[], 0, []⟩) acts (s, led)) (hfreed : s.freed = false) :
    s.Delivered (led.gone.map Prod.fst) ∧ (∀ x ∈ led.gone, x.2 = 10) ∧
    Forall₂ (Young led.clock) (led.stamps s) s.inq := by
  have h₀ : Entered (s₀, ⟨[], 0, []⟩) := by
    refine ⟨⟨hquiet, ⟨[], ?_, ?_⟩, fun x hx => absurd hx not_mem_nil, ⟨0, [], [], ?_, rfl, ?_⟩, ?_⟩, ?_⟩
    · rw [hacc, hinq]
      rfl
    · rw [hrec]
      exact .nil
    · rw [queued, hacc]
      rfl
    · rw [hinq]
      exact .nil
    · rw [hinq]
      exact .nil
    · rw [queued, hacc]
      rfl
  have h : Entered (s, led) := by
    have hinv := hrun.invariant (P := fun p => p.1.freed = true ∨ Entered p) ?_ (.inr h₀)
    · exact hinv.resolve_left (by rw [hfreed]; decide)
    · intro p a p' hp hst
      exact step_holds (hp.resolve_left (by rw [hst.1.1]; decide)) hst
  obtain ⟨h, hq⟩ := h
  obtain ⟨m, old, ts, h1, h2, h3⟩ := h.young
  refine ⟨h.given, h.tenth, ?_⟩
  obtain rfl : m = 0 := by omega
  rw [replicate_zero, append_nil] at h2
  rw [stamps_eq h2 h3]
  exact h3

theorem tick_run : ∀ (n : ℕ) (s : Sock) (led : Ledger), (∀ i, i < n → (tick^[i] s).freed = false) →
    ∃ led', (timed.restrict Live).Run (s, led) (List.replicate n .tick) (tick^[n] s, led')
  | 0, s, led, _ => ⟨led, .nil _⟩
  | n + 1, s, led, h => by
    obtain ⟨led', hrun⟩ := tick_run n s.tick (led.after .tick s s.tick) fun i hi => h (i + 1) (Nat.succ_lt_succ hi)
    exact ⟨led', .cons ⟨⟨h 0 (Nat.succ_pos n), trivial⟩, rfl, rfl⟩ hrun⟩

/-- Two bytes. -/
def twoBytes : Seg := .plain 500 1000 { ack := true } [7, 8] (by decide)

/-- A connection that just got them. -/
def heard : Sock := passes (opened 1000 500) twoBytes

theorem heard_step : (timed.restrict Live).step (opened 1000 500, ⟨[], 0, []⟩) (.input twoBytes) (heard, ⟨[], 0, [0]⟩) :=
  ⟨⟨rfl, rfl⟩, input_eq _ _, rfl⟩

/-- After nine ticks nothing is gone, and the tenth is to come. -/
theorem held_run_nineTicks : ∃ s led, (timed.restrict Live).Run (opened 1000 500, ⟨[], 0, []⟩)
      (.input twoBytes :: List.replicate 9 .tick) (s, led) ∧ s.Delivered (led.gone.map Prod.fst) ∧
    (∀ x ∈ led.gone, x.2 = 10) ∧ Forall₂ (Young led.clock) (led.stamps s) s.inq ∧ s.inq.map (·.ttl) = [1] := by
  obtain ⟨led, hrun⟩ := tick_run 9 heard ⟨[], 0, [0]⟩ (by decide)
  obtain ⟨h1, h2, h3⟩ := held_run rfl rfl rfl rfl (.cons heard_step hrun) (by decide)
  exact ⟨_, led, .cons heard_step hrun, h1, h2, h3, by decide⟩

/-- After ten ticks the data is gone, acknowledged and never taken. -/
theorem data_runs_out : ∃ s led, (timed.restrict Live).Run (opened 1000 500, ⟨[], 0, []⟩)
      (.input twoBytes :: List.replicate 10 .tick) (s, led) ∧
    s.freed = false ∧ s.pcb.ackedRseq = 502 ∧ s.log.accepted.map (·.payload) = [[7, 8]] ∧
    s.log.received = [] ∧ s.inq = [] := by
  obtain ⟨led, hrun⟩ := tick_run 10 heard ⟨[], 0, [0]⟩ (by decide)
  exact ⟨_, led, .cons heard_step hrun, by decide, by decide, by decide, by decide, by decide⟩

end Sock
end Tcp
end Vsf
