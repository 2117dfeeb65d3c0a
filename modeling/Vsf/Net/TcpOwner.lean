/-
# TCP connections: who owns a buffer that is sent

A buffer has one reference for each queue that holds it, and one of the caller as long as the call
returns `VSFERR_NOT_READY`. `Mine` says so of one buffer, and that nobody else sends, receives or
allocates it. Segments, ticks and other calls keep it (`act_mine`).
-/
import Mathlib
import Vsf.Net.TcpRuns

namespace Vsf
namespace Tcp

open Ip List

/-- The buffer a call sends. -/
def Call.Sends : Call → ℕ → Prop
  | .asyncSend b, id => b.id = id
  | .send _ _ _ b _, id => b.id = id
  | _, _ => False

/-- A step that has nothing to do with a buffer. -/
def Act.Spares : Act → ℕ → Prop
  | .input seg, id => seg.buf.id ≠ id
  | .tick, _ => True
  | .call c, id => ¬ c.Sends id

namespace Sock

/-- How often a buffer is in a queue of the socket. -/
def queued (q : List Buf) (id : ℕ) : ℕ := (q.map Buf.id).count id

/-- How many queues hold a buffer. -/
def held (s : Sock) (id : ℕ) : ℕ := s.net.holders id + queued s.outq id + queued s.inq id

/-- A sender's buffer with `k` other references; with `z` it is in no queue. -/
structure Mine (s : Sock) (id k : ℕ) (z : Prop) : Prop where
  holds : s.net.Holds id (queued s.outq id + k)
  idle : z → s.net.holders id = 0 ∧ queued s.outq id = 0
  inq : queued s.inq id = 0
  pool : id ∉ s.net.pool
  env : ∀ cs ∈ s.env, ∀ c ∈ cs, ¬ c.Sends id

variable {s s' : Sock} {id k : ℕ} {z : Prop} {seg : Seg}

@[simp] theorem queued_nil : queued [] id = 0 := rfl

theorem queued_append (q q' : List Buf) : queued (q ++ q') id = queued q id + queued q' id := by
  simp [queued]

theorem queued_cons (b : Buf) (q : List Buf) : queued (b :: q) id = queued [b] id + queued q id :=
  queued_append [b] q

theorem queued_self (b : Buf) : queued [b] b.id = 1 := by simp [queued]

variable {b : Buf} {q : List Buf}

theorem queued_other (h : b.id ≠ id) : queued [b] id = 0 := by simp [queued, h]

theorem queued_cons_other (h : b.id ≠ id) : queued (b :: q) id = queued q id := by
  rw [queued_cons, queued_other h, zero_add]

theorem queued_concat_other (h : b.id ≠ id) : queued (q ++ [b]) id = queued q id := by
  rw [queued_append, queued_other h, add_zero]

theorem Mine.congr (h : Mine s id k z) (hn : s'.net = s.net) (ho : s'.outq = s.outq) (hi : s'.inq = s.inq)
    (he : s'.env = s.env) : Mine s' id k z :=
  ⟨by rw [hn, ho]; exact h.holds, by rw [hn, ho]; exact h.idle, by rw [hi]; exact h.inq, by rw [hn]; exact h.pool,
    by rw [he]; exact h.env⟩

theorem Mine.spared (h : Mine s id k z) (hn : s.net.Spares s'.net id) (ho : queued s'.outq id = queued s.outq id)
    (hi : queued s'.inq id = queued s.inq id) (he : s'.env = s.env) : Mine s' id k z :=
  ⟨by rw [ho]; exact h.holds.spared hn, by rw [hn.holders, ho]; exact h.idle, by rw [hi]; exact h.inq,
    fun hp => h.pool (hn.pool hp), by rw [he]; exact h.env⟩

theorem Mine.setPcb (h : Mine s id k z) (pcb : Pcb) : Mine { s with pcb := pcb } id k z := h.congr rfl rfl rfl rfl

theorem release_mine {i : ℕ} (h : Mine s id k z) (hne : id ≠ i) : Mine (s.release i) id k z :=
  h.spared (Net.release_spares hne) rfl rfl rfl

/-! ### Calls -/

theorem sendflags_spares (f : Flags) (hp : id ∉ s.net.pool) : s.net.Spares (s.sendflags f).2.net id := by
  unfold sendflags
  dsimp only
  cases hget : s.net.bufferGet with
  | none => exact .refl _ _
  | some r =>
    obtain ⟨i, net⟩ := r
    obtain ⟨hne, href, hsp⟩ := Net.bufferGet_spares hp hget
    dsimp only
    cases net.netifDefault with
    | none => exact hsp
    | some netif =>
      dsimp only
      rcases lt_or_ge (tcpBuf s.opts.cfg i netif).room f.headlen with hr | hr
      · rw [sendDo_noRoom hr]
        exact hsp.trans (Net.release_spares hne)
      · rw [sendDo_sends hr]
        exact hsp.trans (Net.ipOutput_spares (b := _) _ href hne)

theorem sendflags_mine (f : Flags) (h : Mine s id k z) : Mine (s.sendflags f).2 id k z :=
  h.spared (sendflags_spares f h.pool) (by simp) (by simp) (by simp)

theorem asyncSend_mine (h : Mine s id k z) (hne : b.id ≠ id) : Mine (s.asyncSend b).2 id k z := by
  generalize hr : s.asyncSend b = r
  have hcase := asyncSend_cases s b
  rw [hr] at hcase
  have href : (s.net.reference b.id).refs b.id ≠ 0 := by
    show Function.update s.net.refs b.id (s.net.refs b.id + 1) b.id ≠ 0
    rw [Function.update_self]
    exact Nat.succ_ne_zero _
  cases hcase with
  | waited => exact release_mine h (Ne.symm hne)
  | closed => exact release_mine h (Ne.symm hne)
  | full => exact h
  | noRoute => exact h
  | noRoom =>
    refine h.spared ?_ ?_ rfl rfl
    · exact ((Net.reference_spares (Ne.symm hne)).trans (Net.release_spares (Ne.symm hne))).trans
        (Net.release_spares (Ne.symm hne))
    · exact queued_concat_other hne
  | sent _ _ _ _ _ hb =>
    subst hb
    refine h.spared ?_ ?_ rfl rfl
    · exact (Net.reference_spares (Ne.symm hne)).trans (Net.ipOutput_spares (b := _) _ href (Ne.symm hne))
    · exact queued_concat_other hne

theorem sendFlush_mine (sm : ℕ) (h : Mine s id k z) : Mine (s.sendFlush sm).2.2 id k z := by
  unfold sendFlush
  split_ifs
  · exact h.setPcb _
  · exact h

theorem sendTry_mine (sm : ℕ) {b : Buf} (flush : Bool) (h : Mine s id k z) (hne : b.id ≠ id) :
    Mine (s.sendTry sm b flush).2.2 id k z := by
  have h1 := asyncSend_mine h hne
  unfold sendTry
  dsimp only
  split_ifs
  · exact release_mine h1 (Ne.symm hne)
  · exact sendFlush_mine sm h1
  · exact h1
  · exact h1.setPcb _

theorem send_mine (sm : ℕ) (pc : SendPc) (evt : Evt) {b : Buf} (flush : Bool) (h : Mine s id k z) (hne : b.id ≠ id) :
    Mine (s.send sm pc evt b flush).2.2 id k z := by
  unfold send
  cases pc with
  | start => exact sendTry_mine sm flush h hne
  | waiting =>
    split_ifs
    · exact release_mine h (Ne.symm hne)
    · exact sendTry_mine sm flush h hne
    · exact h
  | flushing =>
    split_ifs
    · exact release_mine h (Ne.symm hne)
    · exact sendFlush_mine sm h
    · exact h

theorem asyncRecv_mine (h : Mine s id k z) : Mine s.asyncRecv.2.2 id k z := by
  unfold asyncRecv
  split_ifs
  · exact h
  · exact h
  · cases hq : s.inq with
    | nil => exact h
    | cons b q =>
      have hi := h.inq
      rw [hq, queued_cons] at hi
      exact ⟨h.holds, h.idle, Nat.eq_zero_of_add_eq_zero_left hi, h.pool, h.env⟩

theorem recv_mine (sm : ℕ) (pc : RecvPc) (evt : Evt) (h : Mine s id k z) : Mine (s.recv sm pc evt).2.2.2 id k z := by
  have h1 := asyncRecv_mine h
  unfold recv
  cases pc with
  | start =>
    dsimp only
    split_ifs
    · exact h1.setPcb _
    · exact h1
  | waiting =>
    dsimp only
    split_ifs
    · exact h1
    · exact h1
    · exact h

theorem closeFin_mine (sm : ℕ) (h : Mine s id k z) : Mine (s.closeFin sm) id k z := by
  unfold closeFin
  apply Mine.setPcb
  split_ifs
  · exact h
  · exact (sendflags_mine _ (h.setPcb _)).setPcb _

theorem closeDrain_mine (sm : ℕ) (h : Mine s id k z) : Mine (s.closeDrain sm).2.2 id k z := by
  unfold closeDrain
  split_ifs
  · exact h.setPcb _
  · exact closeFin_mine sm h

theorem close_mine (sm : ℕ) (pc : ClosePc) (evt : Evt) (h : Mine s id k z) : Mine (s.close sm pc evt).2.2 id k z := by
  unfold close
  cases pc with
  | start =>
    dsimp only
    split_ifs
    · exact h
    · exact h
    · exact closeDrain_mine sm h
  | draining =>
    dsimp only
    split_ifs
    · exact closeDrain_mine sm h
    · exact closeFin_mine sm h
    · exact h
  | closing =>
    dsimp only
    split_ifs
    · exact h
    · exact h.setPcb _
    · exact h.setPcb _
    · exact h

theorem exec_mine {c : Call} (h : Mine s id k z) (hc : ¬ c.Sends id) : Mine (s.exec c) id k z := by
  cases c with
  | asyncSend b => exact asyncSend_mine h hc
  | asyncRecv => exact asyncRecv_mine h
  | send sm pc evt b flush => exact send_mine sm pc evt flush h hc
  | recv sm pc evt => exact recv_mine sm pc evt h
  | close sm pc evt => exact close_mine sm pc evt h

theorem foldl_exec_mine : ∀ (cs : List Call) {s : Sock}, Mine s id k z → (∀ c ∈ cs, ¬ c.Sends id) →
    Mine (cs.foldl exec s) id k z
  | [], _, h, _ => h
  | c :: cs, _, h, hc =>
    foldl_exec_mine cs (exec_mine h (hc c mem_cons_self)) fun d hd => hc d (mem_cons_of_mem c hd)

theorem react_mine (h : Mine s id k z) : Mine s.react id k z := by
  unfold react
  cases he : s.env with
  | nil => exact h
  | cons calls env =>
    have henv := h.env
    rw [he] at henv
    have h1 : Mine { s with env := env } id k z :=
      ⟨h.holds, h.idle, h.inq, h.pool, fun cs hcs => henv cs (mem_cons_of_mem _ hcs)⟩
    exact foldl_exec_mine calls h1 (henv calls mem_cons_self)

theorem postTx_mine (evt : Evt) (h : Mine s id k z) : Mine (s.postTx evt) id k z := by
  unfold postTx
  cases s.pcb.txSm with
  | none => exact h
  | some sm => exact react_mine (h.congr rfl rfl rfl rfl)

theorem postRx_mine (evt : Evt) (h : Mine s id k z) : Mine (s.postRx evt) id k z := by
  unfold postRx
  cases s.pcb.rxSm with
  | none => exact h
  | some sm => exact react_mine (h.congr rfl rfl rfl rfl)

/-! ### Segments -/

theorem drop_mine (h : Mine s id k z) (hseg : seg.buf.id ≠ id) : Mine (s.drop seg) id k z :=
  h.spared (Net.release_spares (Ne.symm hseg)) rfl rfl rfl

theorem dataInput_mine (h : Mine s id k z) (hseg : seg.buf.id ≠ id) : Mine (s.dataInput seg) id k z := by
  have hcount : Mine (s.count seg) id k z := h.congr rfl rfl rfl rfl
  unfold dataInput
  dsimp only
  split_ifs
  · exact react_mine hcount
  · refine ⟨hcount.holds, hcount.idle, ?_, hcount.pool, hcount.env⟩
    exact (queued_concat_other (b := { seg.buf with ttl := 10 }) hseg).trans hcount.inq

/-- The segment that leaves the queue takes its reference along, at the end. -/
theorem ackOne_mine (h : Mine s id k z) (hq : s.outq = b :: q) : Mine (s.ackOne b q) id k z := by
  set u : Sock := { s with outq := q, log := { s.log with acked := s.log.acked ++ [b] } }
  have hsum : queued s.outq id = queued [b] id + queued q id := by rw [hq, queued_cons]
  have hu : Mine u id (queued [b] id + k) z := by
    refine ⟨?_, fun hz => ⟨(h.idle hz).1, ?_⟩, h.inq, h.pool, h.env⟩
    · have hh := h.holds
      rw [hsum] at hh
      refine ⟨?_, hh.stale⟩
      show s.net.refs id = s.net.holders id + (queued q id + (queued [b] id + k))
      rw [hh.refs]
      omega
    · have := (h.idle hz).2
      show queued q id = 0
      omega
  have hr : Mine (if u.opts.onOutputted then u.react else u) id (queued [b] id + k) z := by
    split_ifs
    · exact react_mine hu
    · exact hu
  show Mine (Sock.release (if u.opts.onOutputted then u.react else u) b.id) id k z
  generalize (if u.opts.onOutputted then u.react else u) = v at hr ⊢
  by_cases hb : b.id = id
  · subst hb
    rw [queued_self] at hr
    have hh : v.net.Holds b.id (queued v.outq b.id + k + 1) := ⟨by rw [hr.holds.refs]; omega, hr.holds.stale⟩
    refine ⟨hh.release, fun hz => ?_, hr.inq, ?_, hr.env⟩
    · rw [show (v.release b.id).net.holders b.id = v.net.holders b.id from Net.release_holders _ _ _]
      exact hr.idle hz
    · rw [show (v.release b.id).net.pool = v.net.pool from Net.release_pool _ _]
      exact hr.pool
  · rw [queued_other hb, zero_add] at hr
    exact release_mine hr (Ne.symm hb)

theorem ackLoop_mine : ∀ (f : ℕ) {s : Sock}, Mine s id k z → Mine (ackLoop f s) id k z
  | 0, _, h => h
  | f + 1, s, h => by
    unfold ackLoop
    cases hq : s.outq with
    | nil => exact h
    | cons b q =>
      dsimp only
      split_ifs
      · exact ackLoop_mine f (ackOne_mine h hq)
      · exact h

theorem ackInput_mine (a : UInt32) (h : Mine s id k z) : Mine (s.ackInput a) id k z :=
  ackLoop_mine _ (h.setPcb _)

theorem mine_kept (hseg : seg.buf.id ≠ id) : Kept (Mine · id k z) seg where
  drop _ h := drop_mine h hseg
  look _ h := h.congr rfl rfl rfl rfl
  flags _ f h _ := sendflags_mine f h
  postTx _ evt h _ := postTx_mine evt h
  postRx _ evt h _ := postRx_mine evt h
  discard _ h _ _ _ := h.congr rfl rfl rfl rfl
  fin _ h _ _ _ _ := (sendflags_mine _ (h.setPcb _)).setPcb _
  finAcked _ h _ _ _ := h.setPcb _
  finWait2 _ h _ := h.setPcb _
  closed _ h _ := h.setPcb _
  data _ h _ _ _ := dataInput_mine h hseg
  ack _ h _ _ _ := ackInput_mine _ h

theorem freeLists_mine (h : Mine s id k z) :
    Mine { s with net := (s.net.freeList s.inq).freeList s.outq, inq := [], outq := [] } id k z := by
  have hin : (s.net.freeList s.inq).Holds id (queued s.outq id + k) := by
    refine Net.Holds.freeList s.inq ?_
    rw [show (s.inq.map Buf.id).count id = 0 from h.inq, zero_add]
    exact h.holds
  have hout : ((s.net.freeList s.inq).freeList s.outq).Holds id k := Net.Holds.freeList s.outq hin
  refine ⟨by simpa using hout, fun hz => ⟨?_, rfl⟩, rfl, ?_, h.env⟩
  · rw [Net.freeList_holders, Net.freeList_holders]
    exact (h.idle hz).1
  · rw [Net.freeList_pool, Net.freeList_pool]
    exact h.pool

theorem reset_mine (h : Mine s id k z) (hseg : seg.buf.id ≠ id) : Mine (reset seg s) id k z := by
  unfold reset
  apply postRx_mine
  apply postTx_mine
  exact (freeLists_mine (drop_mine h hseg)).congr rfl rfl rfl rfl

theorem connected_mine (l : Frame) (h : Mine s id k z) (hseg : seg.buf.id ≠ id) : Mine (connected l seg s) id k z := by
  unfold connected
  apply postTx_mine
  split_ifs
  · exact drop_mine (h.setPcb _) hseg
  · exact h.setPcb _

theorem synSent_mine (l : Frame) (h : Mine s id k z) (hseg : seg.buf.id ≠ id) : Mine (synSent l seg s) id k z := by
  unfold synSent
  split_ifs
  · exact drop_mine ((sendflags_mine _ (h.setPcb _)).setPcb _) hseg
  · exact connected_mine l (sendflags_mine _ (h.setPcb _)) hseg
  · exact drop_mine h hseg

theorem synGet_mine (l : Frame) (h : Mine s id k z) (hseg : seg.buf.id ≠ id) : Mine (synGet l seg s) id k z := by
  have hlook : ∀ pcb : Pcb, Mine ({ s with pcb := pcb } : Sock).look id k z := fun _ => h.congr rfl rfl rfl rfl
  unfold synGet
  dsimp only
  split_ifs
  · exact drop_mine ((sendflags_mine _ (h.setPcb _)).setPcb _) hseg
  · exact connected_mine _ (dataInput_mine (hlook _) hseg) hseg
  · exact connected_mine l (sendflags_mine _ (hlook _)) hseg
  · exact connected_mine l (hlook _) hseg
  · exact drop_mine ((sendflags_mine _ (h.setPcb _)).setPcb _) hseg
  · exact drop_mine h hseg

theorem listen_mine (l : Frame) (h : Mine s id k z) (hseg : seg.buf.id ≠ id) : Mine (listen l seg s) id k z := by
  unfold listen
  split_ifs
  · cases s.stack.sockets with
    | zero => exact drop_mine h hseg
    | succ n =>
      apply drop_mine _ hseg
      exact h.spared (sendflags_spares (s := { s with
        pcb := s.childPcb seg
        inq := []
        outq := []
        opts := { s.opts with onInput := false, onOutputted := false, father := true } }) _ h.pool) rfl rfl rfl
  · exact drop_mine h hseg

/-- **A segment in another buffer.** -/
theorem input_mine (h : Mine s id k z) (hseg : seg.buf.id ≠ id) (hs : s.input seg = some s') : Mine s' id k z := by
  refine input_kept (P := (Mine · id k z)) (mine_kept hseg) (fun _ h => h.setPcb _) (fun _ _ h => reset_mine h hseg) ?_ h hs
  intro u hu hst
  unfold passes pass
  rcases hst with hst | hst | hst
  · rw [hst]
    exact listen_mine _ hu hseg
  · rw [hst]
    exact synSent_mine _ hu hseg
  · rw [hst]
    exact synGet_mine _ hu hseg

/-! ### Ticks -/

theorem checkLoop_spares : ∀ (q : List Buf) (n : Net), queued q id = 0 →
    n.Spares (checkLoop q n).2 id ∧ queued (checkLoop q n).1 id = 0
  | [], n, _ => ⟨.refl n id, rfl⟩
  | b :: q, n, h => by
    have hsum : queued [b] id + queued q id = 0 := by rw [← queued_cons, h]
    have hb : id ≠ b.id := by
      intro heq
      rw [heq, queued_self] at hsum
      omega
    unfold checkLoop
    split_ifs
    · obtain ⟨h1, h2⟩ := checkLoop_spares q (n.release b.id) (by omega)
      exact ⟨(Net.release_spares hb).trans h1, h2⟩
    · obtain ⟨h1, h2⟩ := checkLoop_spares q n (by omega)
      exact ⟨h1, (queued_cons_other (b := { b with ttl := b.ttl - 1 }) (Ne.symm hb)).trans h2⟩

theorem checkBuff_mine (h : Mine s id k z) : Mine s.checkBuff id k z := by
  obtain ⟨h1, h2⟩ := checkLoop_spares s.inq s.net h.inq
  exact h.spared h1 rfl (h2.trans h.inq.symm) rfl

theorem repeatFlags_mine (h : Mine s id k z) : Mine s.repeatFlags id k z :=
  (sendflags_mine _ (h.setPcb _)).setPcb _

theorem giveUp_mine (h : Mine s id k z) : Mine s.giveUp id k z := postTx_mine _ (h.setPcb _)

theorem tickTx_mine (h : Mine s id k z) : Mine s.tickTx.1 id k z := by
  unfold tickTx
  dsimp only
  split_ifs
  · exact repeatFlags_mine (h.setPcb _)
  · exact (freeLists_mine (h.setPcb _)).congr rfl rfl rfl rfl
  · exact giveUp_mine (h.setPcb _)
  · exact h.setPcb _
  · exact h

theorem tickRx_mine (h : Mine s id k z) : Mine s.tickRx.1 id k z := by
  unfold tickRx
  dsimp only
  split_ifs
  · exact postRx_mine _ (h.setPcb _)
  · exact h.setPcb _
  · exact h

theorem flushOut_mine (h : Mine s id k z) : Mine s.flushOut id k z := by
  have hout : (s.net.freeList s.outq).Holds id k := Net.Holds.freeList s.outq h.holds
  have hu : Mine { s with
      net := s.net.freeList s.outq
      outq := []
      pcb := { s.pcb with lseq := s.pcb.ackedLseq, txRetry := 3 } } id k z := by
    refine ⟨by simpa using hout, fun hz => ⟨?_, rfl⟩, h.inq, ?_, h.env⟩
    · rw [Net.freeList_holders]
      exact (h.idle hz).1
    · rw [Net.freeList_pool]
      exact h.pool
  unfold flushOut
  apply postTx_mine
  exact (sendflags_mine _ hu).setPcb _

theorem reference_ne_zero (n : Net) (i : ℕ) : (n.reference i).refs i ≠ 0 := by
  show Function.update n.refs i (n.refs i + 1) i ≠ 0
  rw [Function.update_self]
  exact Nat.succ_ne_zero _

/-- What `vsfip_tcp_send_do` does to the buffer it is given a reference for. -/
theorem sendDo_holds {f : Flags} (h : s.net.Holds b.id (k + 1)) : (s.sendDo b f).2.2.net.Holds b.id k := by
  rcases lt_or_ge b.room f.headlen with hr | hr
  · rw [sendDo_noRoom hr]
    exact h.release
  · rw [sendDo_sends hr]
    exact h.ipOutput (b := s.headed b f) s.opts.inet

theorem sendDo_spares {f : Flags} (href : s.net.refs b.id ≠ 0) (hb : id ≠ b.id) :
    s.net.Spares (s.sendDo b f).2.2.net id := by
  rcases lt_or_ge b.room f.headlen with hr | hr
  · rw [sendDo_noRoom hr]
    exact Net.release_spares hb
  · rw [sendDo_sends hr]
    exact Net.ipOutput_spares (b := s.headed b f) s.opts.inet href hb

theorem sendDo_queues (b : Buf) (f : Flags) : (s.sendDo b f).2.1.id = b.id ∧ (s.sendDo b f).2.2.inq = s.inq ∧
    (s.sendDo b f).2.2.env = s.env ∧ (s.sendDo b f).2.2.net.pool = s.net.pool := by
  rcases lt_or_ge b.room f.headlen with hr | hr
  · rw [sendDo_noRoom hr]
    exact ⟨rfl, rfl, rfl, Net.release_pool _ _⟩
  · rw [sendDo_sends hr]
    exact ⟨rfl, rfl, rfl, Net.ipOutput_pool _ _ _⟩

theorem resend_mine {q' : List Buf} (hb : 0 < queued q b.id) (hq : queued q' id = queued q id)
    (h : Mine { s with outq := q } id k z) : Mine { (s.resend b).2 with outq := q' } id k z := by
  set u : Sock := { s with pcb := { s.pcb with lseq := b.addr }, net := s.net.reference b.id }
  set c : Buf := { b with ttl := s.opts.txTimeoutMs.toUInt16 }
  obtain ⟨-, hinq, henv, hpool⟩ := sendDo_queues (s := u) c { psh := true }
  have hnet : (s.resend b).2.net = (u.sendDo c { psh := true }).2.2.net := rfl
  by_cases hid : id = b.id
  · subst hid
    refine ⟨?_, fun hz => ?_, ?_, ?_, ?_⟩
    · show Net.Holds _ _ (queued q' b.id + k)
      rw [hq, hnet]
      exact sendDo_holds (s := u) (b := c) h.holds.reference
    · have := (h.idle hz).2
      dsimp only at this
      omega
    · exact (congrArg (queued · b.id) hinq).trans h.inq
    · exact fun hp => h.pool (hpool ▸ hp)
    · exact fun cs hcs => h.env cs (henv ▸ hcs)
  · refine h.spared ?_ hq (congrArg (queued · id) hinq) henv
    exact (Net.reference_spares hid).trans (sendDo_spares (s := u) (b := c) (reference_ne_zero _ _) hid)

theorem tickLoop_mine : ∀ (rest done : List Buf) {s : Sock}, Mine { s with outq := done ++ rest } id k z →
    Mine (tickLoop done rest s).1 id k z
  | [], done, s, h => by
    rw [append_nil] at h
    exact h
  | b :: rest, done, s, h => by
    -- the walk changes the segments of the queue, not which buffers are in it
    have hsame : ∀ c : Buf, c.id = b.id → queued (done ++ [c] ++ rest) id = queued (done ++ b :: rest) id := by
      intro c hc
      simp [queued, hc]
    have hin : 0 < queued (done ++ b :: rest) b.id := by simp [queued]
    unfold tickLoop
    dsimp only
    set c : Buf := { b with ttl := b.ttl - 1 } with hc
    have hflush : ∀ d : Buf, d.id = b.id → Mine (flushOut { s with outq := done ++ d :: rest }) id k z := by
      intro d hd
      apply flushOut_mine
      refine h.spared (.refl _ _) ?_ rfl rfl
      simpa using hsame d hd
    split_ifs
    · refine tickLoop_mine rest _ ?_
      exact h.spared (.refl _ _) (hsame c rfl) rfl rfl
    · refine tickLoop_mine rest _ ?_
      exact resend_mine (b := { c with retry := 0 }) hin (hsame _ (sendDo_queues _ _).1) h
    · exact hflush { c with retry := 0 } rfl
    · refine tickLoop_mine rest _ ?_
      exact resend_mine (b := { c with retry := c.retry - 1 }) hin (hsame _ (sendDo_queues _ _).1) h
    · exact hflush { c with retry := c.retry - 1 } rfl

theorem tickAck_mine (h : Mine s id k z) : Mine s.tickAck id k z := by
  unfold tickAck
  dsimp only
  split_ifs
  · exact (sendflags_mine _ (h.setPcb _)).setPcb _
  · exact h.setPcb _
  · exact h

/-- **A tick.** -/
theorem tick_mine (h : Mine s id k z) : Mine s.tick id k z := by
  have h1 := tickTx_mine (checkBuff_mine h)
  have h2 := tickRx_mine h1
  have h3 := tickLoop_mine s.checkBuff.tickTx.1.tickRx.1.outq [] h2
  unfold tick socketTick
  dsimp only
  split_ifs
  · exact h1
  · exact h2
  · exact h3
  · exact tickAck_mine h3

/-- **A buffer stays with its owner whatever else happens at the connection.** -/
theorem act_mine {a : Act} (h : Mine s id k z) (ha : a.Spares id) (hs : s.act a = some s') : Mine s' id k z := by
  cases a with
  | input seg => exact input_mine h ha hs
  | tick => exact Option.some.inj hs ▸ tick_mine h
  | call c => exact Option.some.inj hs ▸ exec_mine h ha

/-- **A step of the interface** takes a reference only with the buffer. -/
theorem interface_mine {a : NetAct} (h : Mine s id k z) (ha : a.Spares id) :
    Mine { s with net := s.net.exec a } id k z := by
  have hrefs := h.holds.refs
  have hy := Net.exec_yields ha (n := s.net) (by omega)
  obtain ⟨d, hd, hr⟩ := hy.lost
  refine ⟨⟨?_, fun hst => h.holds.stale (hy.stale hst)⟩, fun hz => ⟨?_, (h.idle hz).2⟩, h.inq, ?_, h.env⟩
  · show (s.net.exec a).refs id = (s.net.exec a).holders id + (queued s.outq id + k)
    omega
  · have := (h.idle hz).1
    show (s.net.exec a).holders id = 0
    omega
  · show id ∉ (s.net.exec a).pool
    rw [hy.pool]
    exact h.pool

end Sock
end Tcp
end Vsf
