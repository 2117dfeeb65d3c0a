/-
# TCP connections: the calls that send a buffer

`vsfip_udp_async_send` disposes of its buffer. `vsfip_tcp_async_send` keeps a reference without a
route and leaves the buffer in the queue without room; `vsfip_tcp_sendflags` loses its buffer
without a route; `vsfip_tcp_send` releases what was released, and has given its reference away when
it waits for the flush. `sends_settled` says which calls are right, and that a buffer stays settled as
long as no segment is sent again that is still queued at the interface.
-/
import Mathlib
import Vsf.Net.TcpOwner
import Vsf.Net.Udp

namespace Vsf
namespace Tcp

open Ip Option

variable {err : VsfErr} {b : Buf}

namespace Sock

variable {s s' : Sock} {id k : ℕ} {z : Prop}

/-! ### The calls that send the buffer -/

/-- The caller has the only reference, and no queue has the buffer. -/
structure Given (s : Sock) (id : ℕ) : Prop where
  refs : s.net.refs id = 1
  held : s.held id = 0
  stale : id ∉ s.net.stale

/-- The call has disposed of the buffer as it must. -/
def Settled (s : Sock) (id : ℕ) (err : VsfErr) : Prop := s.net.Settled id (s.held id) err

/-- The segment is larger than the window leaves room for. -/
def Full (s : Sock) (b : Buf) : Prop := bufferlistLen s.outq + b.size > s.sendWindow

/-- `vsfip_tcp_async_send` is right unless it gets to the route and finds none, or no room for the header. -/
def AsyncRight (s : Sock) (b : Buf) : Prop :=
  s.pcb.txSm.isSome ∨ s.pcb.lclose ∨ s.Full b ∨ (s.net.netifDefault.isSome ∧ 20 ≤ b.room)

/-- `vsfip_tcp_send` is right when it must wait, finds no route, or sends what need not be flushed. -/
def TryRight (s : Sock) (b : Buf) (flush : Bool) : Prop :=
  s.pcb.txSm = none ∧ s.pcb.lclose = false ∧
    (s.Full b ∨ s.net.netifDefault = none ∨ (20 ≤ b.room ∧ flush = false))

/-- When a call of `vsfip_tcp_send` is right, from where its protothread waits. -/
def SendRight (s : Sock) (pc : SendPc) (evt : Evt) (b : Buf) (flush : Bool) : Prop :=
  match pc with
  | .start => s.TryRight b flush
  | .waiting => evt = .txok → s.TryRight b flush
  | .flushing => evt = .txok ∧ s.outq = []

/-- What the protothread has of its buffer: the caller's reference, until it waits for the flush. -/
def SendOwns (s : Sock) (pc : SendPc) (id : ℕ) : Prop :=
  if pc = .flushing then s.net.refs id = s.held id ∧ id ∉ s.net.stale else s.Given id

theorem Given.holds (h : s.Given id) : s.net.Holds id (0 + 1) := by
  have hh := h.held
  unfold Sock.held at hh
  exact ⟨by rw [h.refs]; omega, h.stale⟩

theorem Given.outq (h : s.Given id) : queued s.outq id = 0 := by
  have hh := h.held
  unfold Sock.held at hh
  omega

theorem Given.inq (h : s.Given id) : queued s.inq id = 0 := by
  have hh := h.held
  unfold Sock.held at hh
  omega

theorem Given.holders (h : s.Given id) : s.net.holders id = 0 := by
  have hh := h.held
  unfold Sock.held at hh
  omega

@[simp] theorem release_held (i : ℕ) : (s.release i).held id = s.held id :=
  congrArg (· + _ + _) (Net.release_holders s.net i id)

theorem kept_of_negative (h : err.negative) : err.kept = 0 := by
  cases err with
  | notReady => cases h
  | _ => rfl

theorem Given.release_settled (h : s.Given id) {err : VsfErr} (herr : err.negative) : (s.release id).Settled id err := by
  have hrel := h.holds.release
  refine ⟨?_, hrel.stale, fun _ => by rw [release_held, h.held]⟩
  rw [release_held, h.held, kept_of_negative herr]
  show (s.net.release id).refs id = 0 + 0
  rw [hrel.refs, Net.release_holders, h.holders]

variable {n : Net} {held i : ℕ} {c : Buf} {inet : Bool}

theorem not_settled_release (h : n.refs id = 0) : ¬ (n.release id).Settled id held err := by
  intro hset
  apply hset.stale
  show id ∈ (n.release id).stale
  rw [Net.release, if_pos h]
  exact List.mem_append_right _ (List.mem_singleton_self id)

theorem Given.release_refs (h : s.Given id) : (s.net.release id).refs id = 0 := by
  rw [h.holds.release.refs, Net.release_holders, h.holders]

/-- No room for the header: both references are gone, and the buffer is queued. -/
theorem Given.noRoom_refs (h : s.Given id) : (((s.net.reference id).release id).release id).refs id = 0 := by
  have hh := h.holds.reference.release.release
  rw [hh.refs, Net.release_holders, Net.release_holders, Net.reference_holders, h.holders]

theorem Given.sent_refs (h : s.Given i) (hc : c.id = i)
    (hnet : s'.net = ((s.net.reference i).ipOutput inet c).2) (ho : s'.outq = s.outq ++ [c]) (hi : s'.inq = s.inq) :
    s'.net.refs i = s'.held i := by
  subst hc
  have hh : s'.net.Holds c.id 1 := hnet ▸ h.holds.reference.ipOutput inet
  rw [hh.refs, Sock.held, ho, hi, queued_append, queued_self, h.outq, h.inq]

theorem Given.sent_stale (h : s.Given i) (hc : c.id = i)
    (hnet : s'.net = ((s.net.reference i).ipOutput inet c).2) : i ∉ s'.net.stale := by
  subst hc
  have hh : s'.net.Holds c.id 1 := hnet ▸ h.holds.reference.ipOutput inet
  exact hh.stale

/-- What `vsfip_tcp_async_send` does with a buffer of the caller. -/
inductive SendEnd (s : Sock) (b : Buf) : VsfErr → Sock → Prop
  | refused {err : VsfErr} (h : s.pcb.txSm.isSome ∨ s.pcb.lclose) (herr : err.negative) : SendEnd s b err (s.release b.id)
  | full (h : s.pcb.txSm = none ∧ s.pcb.lclose = false) (hw : s.Full b) : SendEnd s b .notReady s
  | noRoute (h : s.pcb.txSm = none ∧ s.pcb.lclose = false) (hw : ¬ s.Full b) (hn : s.net.netifDefault = none) :
      SendEnd s b .fail s
  | noRoom {s' : Sock} (h : s.pcb.txSm = none ∧ s.pcb.lclose = false) (hw : ¬ s.Full b) (hn : s.net.netifDefault ≠ none)
      (hr : b.room < 20) (hrefs : s'.net.refs b.id = 0) (hheld : s'.held b.id ≠ 0) : SendEnd s b .fail s'
  | sent {s' : Sock} (h : s.pcb.txSm = none ∧ s.pcb.lclose = false) (hw : ¬ s.Full b) (hn : s.net.netifDefault ≠ none)
      (hr : 20 ≤ b.room) (hrefs : s'.net.refs b.id = s'.held b.id) (hst : b.id ∉ s'.net.stale) (ho : s'.outq ≠ []) :
      SendEnd s b .none s'

theorem asyncSend_end (h : s.Given b.id) : SendEnd s b (s.asyncSend b).1 (s.asyncSend b).2 := by
  generalize hr : s.asyncSend b = r
  have hcase := asyncSend_cases s b
  rw [hr] at hcase
  cases hcase with
  | waited hs => exact .refused (.inl hs) rfl
  | closed _ hc => exact .refused (.inr hc) rfl
  | full hs hc hw => exact .full ⟨hs, hc⟩ hw
  | noRoute hs hc hw hn => exact .noRoute ⟨hs, hc⟩ hw hn
  | noRoom hs hc hw hn hroom =>
    refine .noRoom ⟨hs, hc⟩ hw (by rw [hn]; exact some_ne_none _) hroom h.noRoom_refs ?_
    simp [held, queued]
  | @sent netif b' hs hc hw hn hroom hb =>
    have hid : (s.headed b' { psh := true }).id = b.id := by rw [headed, hb]
    refine .sent ⟨hs, hc⟩ hw (by rw [hn]; exact some_ne_none _) hroom ?_ ?_ (by simp)
    · exact h.sent_refs hid rfl rfl rfl
    · exact h.sent_stale hid rfl

theorem Given.notReady_settled (h : s.Given id) : s.Settled id .notReady :=
  ⟨by rw [h.refs, h.held]; rfl, h.stale, fun hn => by cases hn⟩

theorem asyncSend_settled_iff (h : s.Given b.id) :
    (s.asyncSend b).2.Settled b.id (s.asyncSend b).1 ↔ s.AsyncRight b := by
  have hend := asyncSend_end h
  unfold AsyncRight
  generalize s.asyncSend b = r at hend ⊢
  obtain ⟨err, s'⟩ := r
  dsimp only at hend ⊢
  cases hend with
  | refused hs herr => exact iff_of_true (h.release_settled herr) (by tauto)
  | full hs hw => exact iff_of_true h.notReady_settled (.inr (.inr (.inl hw)))
  | noRoute hs hw hn =>
    refine iff_of_false (fun hset => ?_) (by simp [hs, hw, hn])
    have hrefs := hset.refs
    rw [h.refs, h.held] at hrefs
    cases hrefs
  | noRoom hs hw hn hroom hrefs hheld =>
    exact iff_of_false (fun hset => hheld (hset.gone rfl)) (by simp [hs, hw]; omega)
  | sent hs hw hn hroom hrefs hst ho =>
    exact iff_of_true ⟨hrefs, hst, fun hneg => by cases hneg⟩ (.inr (.inr (.inr ⟨isSome_iff_ne_none.mpr hn, hroom⟩)))

/-- A buffer that is settled is not settled any more with another reference. -/
theorem not_settled_notReady (h : n.refs id = held) : ¬ n.Settled id held .notReady := by
  intro hset
  have hrefs := hset.refs
  rw [h] at hrefs
  exact absurd hrefs (by simp [VsfErr.kept])

theorem sendTry_settled_iff (sm : ℕ) (flush : Bool) (h : s.Given b.id) :
    (s.sendTry sm b flush).2.2.Settled b.id (s.sendTry sm b flush).1 ↔ s.TryRight b flush := by
  have hend := asyncSend_end h
  unfold sendTry TryRight
  generalize s.asyncSend b = r at hend ⊢
  obtain ⟨err, s'⟩ := r
  cases hend with
  | refused hs herr =>
    rw [if_pos herr]
    refine iff_of_false (not_settled_release h.release_refs) fun hn => ?_
    rw [hn.1, hn.2.1] at hs
    rcases hs with hs | hs <;> cases hs
  | full hs hw => exact iff_of_true h.notReady_settled ⟨hs.1, hs.2, .inl hw⟩
  | noRoute hs hw hn => exact iff_of_true (h.release_settled rfl) ⟨hs.1, hs.2, .inr (.inl hn)⟩
  | noRoom hs hw hn hroom hrefs hheld => exact iff_of_false (not_settled_release hrefs) (by simp [hw, hn]; omega)
  | sent hs hw hn hroom hrefs hst ho =>
    cases flush with
    | true =>
      refine iff_of_false ?_ (by simp [hw, hn])
      show ¬ (s'.sendFlush sm).2.2.Settled b.id (s'.sendFlush sm).1
      rw [sendFlush, if_pos ho]
      exact not_settled_notReady hrefs
    | false => exact iff_of_true ⟨hrefs, hst, fun hneg => by cases hneg⟩ ⟨hs.1, hs.2, .inr (.inr ⟨hroom, rfl⟩)⟩

/-- **When a call of `vsfip_tcp_send` is right.** -/
theorem send_settled_iff (sm : ℕ) (pc : SendPc) (evt : Evt) (flush : Bool) (h : s.SendOwns pc b.id) :
    (s.send sm pc evt b flush).2.2.Settled b.id (s.send sm pc evt b flush).1 ↔ s.SendRight pc evt b flush := by
  unfold send SendRight
  cases pc with
  | start => exact sendTry_settled_iff sm flush h
  | waiting =>
    have h : s.Given b.id := h
    split_ifs with h1 h2
    · exact iff_of_true (h.release_settled rfl) (by simp [h1])
    · rw [sendTry_settled_iff sm flush h]
      simp [h2]
    · exact iff_of_true h.notReady_settled fun he => absurd he h2
  | flushing =>
    obtain ⟨hrefs, hst⟩ : s.net.refs b.id = s.held b.id ∧ b.id ∉ s.net.stale := h
    unfold sendFlush
    split_ifs with h1 h2 h3
    · -- the reference released is not the caller's any more
      refine iff_of_false (fun hset => ?_) (by simp [h1])
      by_cases h0 : s.net.refs b.id = 0
      · exact not_settled_release h0 hset
      · have hone : (s.net.release b.id).refs b.id + 1 = s.net.refs b.id := by
          rw [Net.release_of_pos h0]
          show Function.update s.net.refs b.id (s.net.refs b.id - 1) b.id + 1 = _
          rw [Function.update_self]
          omega
        have hset' : (s.net.release b.id).refs b.id = (s.release b.id).held b.id + 0 := hset.refs
        rw [release_held] at hset'
        omega
    · exact iff_of_false (not_settled_notReady hrefs) (by simp [h3])
    · exact iff_of_true ⟨hrefs, hst, fun hn => by cases hn⟩ ⟨h2, by simpa using h3⟩
    · exact iff_of_false (not_settled_notReady hrefs) (by simp [h2])

theorem sendDo_settled {f : Flags} (h : s.Given b.id) : (s.sendDo b f).2.2.Settled b.id (s.sendDo b f).1 := by
  have hh : (s.sendDo b f).2.2.net.Holds b.id 0 := sendDo_holds h.holds
  rcases lt_or_ge b.room f.headlen with hr | hr
  · rw [sendDo_noRoom hr]
    exact h.release_settled rfl
  · rw [sendDo_sends hr] at hh ⊢
    refine ⟨?_, hh.stale, fun hn => by cases hn⟩
    rw [hh.refs, held]
    show _ = _ + queued s.outq b.id + queued s.inq b.id + 0
    rw [h.outq, h.inq]

/-- **`vsfip_tcp_sendflags` loses the buffer it takes when there is no route.** -/
theorem sendflags_settled_iff {pool : List ℕ} (f : Flags) (hp : s.net.pool = id :: pool) (hh : s.held id = 0)
    (hst : id ∉ s.net.stale) :
    (s.sendflags f).2.Settled id (s.sendflags f).1 ↔ s.net.netifDefault.isSome := by
  set n : Net := { s.net with pool := pool, refs := Function.update s.net.refs id 1 }
  have hget : s.net.bufferGet = some (id, n) := by rw [Net.bufferGet, hp]
  unfold sendflags
  dsimp only
  rw [hget]
  dsimp only
  set u : Sock := { s with
    pcb := { s.pcb with txTimeoutMs := if f.syn ∨ f.fin then s.opts.txTimeoutMs else s.pcb.txTimeoutMs }
    net := n }
  have hgiven : u.Given id := ⟨Function.update_self _ _ _, hh, hst⟩
  cases hroute : n.netifDefault with
  | none =>
    refine iff_of_false (fun hset => ?_) (by simp)
    have hrefs : u.net.refs id = u.held id + 0 := hset.refs
    rw [hgiven.refs, hgiven.held] at hrefs
    cases hrefs
  | some netif =>
    refine iff_of_true ?_ rfl
    exact sendDo_settled (b := tcpBuf u.opts.cfg id netif) hgiven

/-! ### Runs -/

end Sock

/-- What goes on around a buffer: at the connection or at the interface. -/
inductive Around
  | sock (a : Act)
  | net (a : NetAct)

/-- A step that has nothing to do with a buffer. -/
def Around.Spares : Around → ℕ → Prop
  | .sock a, id => a.Spares id
  | .net a, id => a.Spares id

/-- One step at the connection or the interface. -/
def Sock.around (s : Sock) : Around → Option Sock
  | .sock a => s.act a
  | .net a => some { s with net := s.net.exec a }

/-- A connection and its interface, from any socket on. -/
def wired : System Sock Around where
  start _ := True
  step s a s' := s.around a = some s'

/-- The step puts no buffer into a queue of the interface whose `netif_node` is in one. -/
def Sock.Unlinked (s : Sock) (a : Around) : Prop := ∀ s', s.around a = some s' → s'.net.again = s.net.again

/-- A connection in `vsfip_tcp_send`: where its protothread is and what it returned last. -/
structure Sending where
  sock : Sock
  pc : SendPc
  err : VsfErr

/-- The call goes on, or something else happens. -/
inductive SendAct
  | resume (evt : Evt)
  | other (a : Around)

/-- `vsfip_tcp_send` of the caller's buffer, called again as long as it returns `VSFERR_NOT_READY`. -/
def sendCalls (sm : ℕ) (b : Buf) (flush : Bool) : System Sending SendAct where
  start x := x.pc = .start ∧ x.err = .notReady ∧ x.sock.Given b.id ∧ b.id ∉ x.sock.net.pool ∧
    ∀ cs ∈ x.sock.env, ∀ c ∈ cs, ¬ c.Sends b.id
  step x i x' :=
    match i with
    | .resume evt => x.err = .notReady ∧ x.sock.send sm x.pc evt b flush = (x'.err, x'.pc, x'.sock)
    | .other a => a.Spares b.id ∧ x.sock.around a = some x'.sock ∧ x'.pc = x.pc ∧ x'.err = x.err

/-- The calls that are right, and the steps after which the queues are still whole. -/
def Sending.Right (b : Buf) (flush : Bool) (x : Sending) : SendAct → Prop
  | .resume evt => x.sock.SendRight x.pc evt b flush
  | .other a => x.sock.Unlinked a

/-- What a run whose calls are right keeps. -/
structure Sending.Inv (b : Buf) (x : Sending) : Prop where
  mine : x.sock.Mine b.id x.err.kept (x.err ≠ .none)
  pc : x.err = .notReady → x.pc ≠ .flushing

namespace Sock

variable {s s' : Sock} {id : ℕ} {z : Prop}

theorem Mine.given (h : Mine s b.id 1 z) (hz : z) : s.Given b.id := by
  obtain ⟨h1, h2⟩ := h.idle hz
  refine ⟨?_, ?_, h.holds.stale⟩
  · rw [h.holds.refs, h1, h2]
  · rw [held, h1, h2, h.inq]

theorem Mine.settled (h : Mine s id err.kept (err ≠ .none)) : s.Settled id err := by
  refine ⟨?_, h.holds.stale, fun hneg => ?_⟩
  · rw [h.holds.refs, held, h.inq]
    omega
  · obtain ⟨h1, h2⟩ := h.idle (fun he => by rw [he] at hneg; cases hneg)
    rw [held, h1, h2, h.inq]

/-- A call of `vsfip_tcp_send` touches no more than the buffer. -/
theorem send_frame (sm : ℕ) (pc : SendPc) (evt : Evt) (b : Buf) (flush : Bool) :
    (s.send sm pc evt b flush).2.2.inq = s.inq ∧ (s.send sm pc evt b flush).2.2.env = s.env ∧
    (s.send sm pc evt b flush).2.2.net.pool = s.net.pool := by
  have hrel : ∀ u : Sock, u.inq = s.inq ∧ u.env = s.env ∧ u.net.pool = s.net.pool →
      (u.release b.id).inq = s.inq ∧ (u.release b.id).env = s.env ∧ (u.release b.id).net.pool = s.net.pool :=
    fun u hu => ⟨hu.1, hu.2.1, (Net.release_pool _ _).trans hu.2.2⟩
  have hasync : (s.asyncSend b).2.inq = s.inq ∧ (s.asyncSend b).2.env = s.env ∧
      (s.asyncSend b).2.net.pool = s.net.pool := by
    generalize hr : s.asyncSend b = r
    have hcase := asyncSend_cases s b
    rw [hr] at hcase
    cases hcase with
    | waited => exact hrel s ⟨rfl, rfl, rfl⟩
    | closed => exact hrel s ⟨rfl, rfl, rfl⟩
    | full => exact ⟨rfl, rfl, rfl⟩
    | noRoute => exact ⟨rfl, rfl, rfl⟩
    | noRoom => exact ⟨rfl, rfl, (Net.release_pool _ _).trans (Net.release_pool _ _)⟩
    | sent => exact ⟨rfl, rfl, Net.ipOutput_pool _ _ _⟩
  have htry : (s.sendTry sm b flush).2.2.inq = s.inq ∧ (s.sendTry sm b flush).2.2.env = s.env ∧
      (s.sendTry sm b flush).2.2.net.pool = s.net.pool := by
    unfold sendTry sendFlush
    dsimp only
    split_ifs
    · exact hrel _ hasync
    all_goals exact hasync
  unfold send sendFlush
  cases pc with
  | start => exact htry
  | waiting =>
    dsimp only
    split_ifs
    · exact hrel s ⟨rfl, rfl, rfl⟩
    · exact htry
    · exact ⟨rfl, rfl, rfl⟩
  | flushing =>
    split_ifs
    · exact hrel s ⟨rfl, rfl, rfl⟩
    all_goals exact ⟨rfl, rfl, rfl⟩

variable {sm : ℕ} {flush : Bool}

/-- A right call that returns `VSFERR_NOT_READY` waits for the window. -/
theorem sendTry_waits (h : s.Given b.id) (hr : s.TryRight b flush) (he : (s.sendTry sm b flush).1 = .notReady) :
    (s.sendTry sm b flush).2.1 = .waiting ∧ (s.sendTry sm b flush).2.2.held b.id = 0 := by
  have hend := asyncSend_end h
  unfold sendTry at he ⊢
  generalize s.asyncSend b = r at hend he ⊢
  obtain ⟨err, s'⟩ := r
  cases hend with
  | refused hs herr =>
    rw [if_pos herr] at he
    rw [he] at herr
    cases herr
  | full hs hw => exact ⟨rfl, h.held⟩
  | noRoute hs hw hn => cases he
  | noRoom hs hw hn hroom hrefs hheld => cases he
  | sent hs hw hn hroom hrefs hst ho =>
    obtain ⟨-, -, hf | hf | ⟨-, hf⟩⟩ := hr
    · exact absurd hf hw
    · exact absurd hf hn
    · subst hf
      cases he

theorem send_waits (sm : ℕ) {pc : SendPc} {evt : Evt} {flush : Bool} (h : s.Given b.id) (hpc : pc ≠ .flushing)
    (hr : s.SendRight pc evt b flush) (he : (s.send sm pc evt b flush).1 = .notReady) :
    (s.send sm pc evt b flush).2.1 = .waiting ∧ (s.send sm pc evt b flush).2.2.held b.id = 0 := by
  cases pc with
  | start => exact sendTry_waits h hr he
  | waiting =>
    unfold send at he ⊢
    split_ifs at he ⊢ with h1 h2
    · exact sendTry_waits h (hr h2) he
    · exact ⟨rfl, h.held⟩
  | flushing => exact absurd rfl hpc

/-- **A buffer stays with its owner whatever else happens.** -/
theorem around_mine {a : Around} {k : ℕ} (h : Mine s id k z) (ha : a.Spares id) (hs : s.around a = some s') :
    Mine s' id k z := by
  cases a with
  | sock a => exact act_mine h ha hs
  | net a => exact Option.some.inj hs ▸ interface_mine h ha

theorem sendCalls_inv_step {x x' : Sending} {i : SendAct} (h : x.Inv b)
    (hr : x.Right b flush i) (hs : (sendCalls sm b flush).step x i x') : x'.Inv b := by
  cases i with
  | other a =>
    obtain ⟨ha, hact, hpc, herr⟩ := hs
    refine ⟨?_, by rw [herr, hpc]; exact h.pc⟩
    rw [herr]
    exact around_mine h.mine ha hact
  | resume evt =>
    obtain ⟨herr, hsend⟩ := hs
    have hmine := h.mine
    rw [herr] at hmine
    have hgiven : x.sock.Given b.id := hmine.given (by decide)
    have hpc : x.pc ≠ .flushing := h.pc herr
    have hset := (send_settled_iff sm x.pc evt flush (by rw [SendOwns, if_neg hpc]; exact hgiven)).mpr hr
    have hwait := send_waits sm hgiven hpc hr
    obtain ⟨h1, h2, h3⟩ := send_frame (s := x.sock) sm x.pc evt b flush
    rw [hsend] at hset hwait h1 h2 h3
    dsimp only at hset hwait h1 h2 h3
    have hinq : queued x'.sock.inq b.id = 0 := by rw [h1]; exact hmine.inq
    have hrefs := hset.refs
    rw [held, hinq] at hrefs
    refine ⟨⟨⟨by rw [hrefs]; omega, hset.stale⟩, fun hne => ?_, hinq, by rw [h3]; exact hmine.pool,
      by rw [h2]; exact hmine.env⟩, fun he => by rw [(hwait he).1]; decide⟩
    have hzero : x'.sock.held b.id = 0 := by
      by_cases he : x'.err = .notReady
      · exact (hwait he).2
      · apply hset.gone
        revert hne he
        cases x'.err <;> simp [VsfErr.negative]
    rw [held] at hzero
    omega

/-- **A buffer sent by right calls is settled whenever they return, and ever after.** -/
theorem sendCalls_settled {x : Sending}
    (h : ((sendCalls sm b flush).restrict (Sending.Right b flush)).Reach x) : x.sock.Settled b.id x.err := by
  have hinv : x.Inv b := by
    refine h.invariant ?_ fun x i x' _ hx hs => sendCalls_inv_step hx hs.1 hs.2
    rintro x ⟨hpc, herr, hgiven, hpool, henv⟩
    refine ⟨⟨?_, fun _ => ⟨hgiven.holders, hgiven.outq⟩, hgiven.inq, hpool, henv⟩, fun _ => by rw [hpc]; decide⟩
    rw [herr, hgiven.outq]
    exact hgiven.holds
  exact hinv.mine.settled

theorem run_settled {as : List Around} (h : Mine s id err.kept (err ≠ .none))
    (hrun : (wired.restrict fun s a => a.Spares id ∧ s.Unlinked a).Run s as s') : s'.Settled id err :=
  (hrun.invariant (P := fun u => Mine u id err.kept (err ≠ .none)) (fun _ _ _ hu hs => around_mine hu hs.1.1 hs.2) h).settled

/-- **Which calls that send a buffer dispose of it as they must**: all of `vsfip_udp_async_send`, the right
ones of the TCP functions; then it stays settled as long as nothing queued at the interface is queued there
again. -/
theorem sends_settled (s : Sock) (b : Buf) :
    (∀ (st : Udp.Stack) (u : Option Udp.Socket) (sockaddr : Option Sockaddr), Udp.Given st.net b.id →
      (Udp.asyncSend st u sockaddr b).2.2.net.Settled b.id ((Udp.asyncSend st u sockaddr b).2.2.net.holders b.id)
        (Udp.asyncSend st u sockaddr b).1) ∧
    (s.Given b.id → ((s.asyncSend b).2.Settled b.id (s.asyncSend b).1 ↔ s.AsyncRight b)) ∧
    (∀ (sm : ℕ) (pc : SendPc) (evt : Evt) (flush : Bool), s.SendOwns pc b.id →
      ((s.send sm pc evt b flush).2.2.Settled b.id (s.send sm pc evt b flush).1 ↔ s.SendRight pc evt b flush)) ∧
    (∀ (f : Flags) (id : ℕ) (pool : List ℕ), s.net.pool = id :: pool → s.held id = 0 → id ∉ s.net.stale →
      ((s.sendflags f).2.Settled id (s.sendflags f).1 ↔ s.net.netifDefault.isSome)) ∧
    (∀ (id : ℕ) (err : VsfErr) (as : List Around) (s' : Sock), Mine s id err.kept (err ≠ .none) →
      (wired.restrict fun s a => a.Spares id ∧ s.Unlinked a).Run s as s' → s'.Settled id err) ∧
    (∀ (sm : ℕ) (flush : Bool) (x : Sending),
      ((sendCalls sm b flush).restrict (Sending.Right b flush)).Reach x → x.sock.Settled b.id x.err) :=
  ⟨fun st u sockaddr h => Udp.asyncSend_settled st u sockaddr h, asyncSend_settled_iff,
    fun sm pc evt flush h => send_settled_iff sm pc evt flush h,
    fun f _ _ hp hh hst => sendflags_settled_iff f hp hh hst, fun _ _ _ _ h hrun => run_settled h hrun,
    fun _ _ _ h => sendCalls_settled h⟩

/-- An established connection and a caller with buffer 7. -/
def toSend (netif : Option Netif) (lclose : Bool) : Sock :=
  let s := opened 100 700
  { s with
    pcb := { s.pcb with lclose := lclose }
    net := { s.net.reference 7 with netifDefault := netif } }

/-- Two bytes are sent by each of the calls, and a FIN; one time the driver has taken them at the next tick. -/
theorem sends_settled_twoBytes : let s := toSend (some .ethernet) false
    let b := Buf.plain 7 [1, 2] (by decide)
    let r := Udp.asyncSend ⟨[], 49152, s.net, 0⟩ (some ⟨true, 0, ⟨0, 0⟩, false⟩) (some ⟨0xc0a80001, 53⟩) b
    let u := (s.send 5 .start .other b false).2.2
    (r.1 = .none ∧ r.2.2.net.Settled 7 (r.2.2.net.holders 7) r.1) ∧
    (s.asyncSend b).2.Settled 7 .none ∧
    u.Settled 7 .none ∧
    (s.sendflags { fin := true }).2.Settled 1 .none ∧
    s.tick.Settled 7 .notReady ∧
    ({ u with net := u.net.exec .txFinish } : Sock).tick.Settled 7 .none := by
  intro s b r u
  have henv : ∀ cs ∈ s.env, ∀ c ∈ cs, ¬ c.Sends 7 := fun _ h => absurd h List.not_mem_nil
  have hg : s.Given 7 := ⟨by decide, by decide, by decide⟩
  have hm : Mine s 7 1 True := ⟨⟨by decide, by decide⟩, fun _ => by decide, by decide, by decide, henv⟩
  obtain ⟨h1, h2, h3, h4, h5, h6⟩ := sends_settled s b
  refine ⟨⟨by decide, h1 _ _ _ ⟨by decide, by decide, by decide⟩⟩, ?_, ?_, ?_, ?_, ?_⟩
  · exact (h2 hg).mpr (.inr (.inr (.inr ⟨by decide, by decide⟩)))
  · exact (h3 5 .start .other false hg).mpr ⟨by decide, by decide, .inr (.inr ⟨by decide, rfl⟩)⟩
  · exact (h4 { fin := true } 1 [2, 3, 4] (by decide) (by decide) (by decide)).mpr (by decide)
  · have hclean : s.Unlinked (.sock .tick) := by
      rintro _ ⟨⟩
      decide
    exact h5 7 .notReady [.sock .tick] s.tick ⟨hm.holds, fun _ => hm.idle trivial, hm.inq, hm.pool, hm.env⟩
      (.cons ⟨⟨trivial, hclean⟩, rfl⟩ (.nil _))
  · have hright : Sending.Right b false ⟨s, .start, .notReady⟩ (.resume .other) :=
      ⟨by decide, by decide, .inr (.inr ⟨by decide, rfl⟩)⟩
    set v : Sock := { u with net := u.net.exec .txFinish }
    have hsent : ((sendCalls 5 b false).restrict (Sending.Right b false)).Reach ⟨u, .start, .none⟩ :=
      .step (.start ⟨rfl, rfl, hg, by decide, henv⟩) ⟨hright, rfl, rfl⟩
    have htake : u.Unlinked (.net .txFinish) := by
      rintro _ ⟨⟩
      decide
    have htick : v.Unlinked (.sock .tick) := by
      rintro _ ⟨⟩
      decide
    have htaken : ((sendCalls 5 b false).restrict (Sending.Right b false)).Reach ⟨v, .start, .none⟩ :=
      hsent.step (i := .other (.net .txFinish)) ⟨htake, trivial, rfl, rfl, rfl⟩
    exact h6 5 false ⟨v.tick, .start, .none⟩
      (htaken.step (i := .other (.sock .tick)) ⟨htick, trivial, rfl, rfl, rfl⟩)

/-- Without a route two fail with the reference still there; at a closed connection `vsfip_tcp_send`
releases twice. -/
theorem send_unsettled : let b := Buf.plain 7 [1, 2] (by decide)
    let s := toSend none false
    let s' := toSend (some .ethernet) true
    (s.Given 7 ∧ (s.asyncSend b).1 = .fail ∧ (s.asyncSend b).2.net.refs 7 = 1 ∧ ¬ (s.asyncSend b).2.Settled 7 .fail) ∧
    ((s.sendflags { ack := true }).1 = .fail ∧ (s.sendflags { ack := true }).2.net.refs 1 = 1 ∧
      ¬ (s.sendflags { ack := true }).2.Settled 1 .fail) ∧
    (s'.Given 7 ∧ (s'.send 5 .start .other b false).1 = .fail ∧ (s'.send 5 .start .other b false).2.2.net.stale = [7] ∧
      ¬ (s'.send 5 .start .other b false).2.2.Settled 7 .fail) := by
  intro b s s'
  refine ⟨⟨⟨by decide, by decide, by decide⟩, by decide, by decide, fun h => ?_⟩, ⟨by decide, by decide, fun h => ?_⟩,
    ⟨by decide, by decide, by decide⟩, by decide, by decide, fun h => ?_⟩
  · exact absurd h.refs (by decide)
  · exact absurd h.refs (by decide)
  · exact absurd h.stale (by decide)

end Sock
end Tcp
end Vsf
