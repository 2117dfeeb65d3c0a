/-
# What the HTTP client cleans up

`vsfip_httpc_get` is a protothread: a state is the parameter block, the entry it is resumed at, and
its local `err`. Whatever fails, it ends at `close`, where it releases `buf` if that is not `NULL`,
also after a failed `vsfip_tcp_send` and a segment that ends inside the header, which were released;
and the error is gone once `vsfip_tcp_close` was suspended (`clean_iff`).
-/
import Mathlib
import Vsf.Lib.System

namespace Vsf
namespace Httpc

open List Option

/-- A buffer: which one it is, and its `app` bytes. -/
structure Buf where
  id : ℕ
  data : List UInt8

/-- What `vsfip_httpc_prasehead` returns, the `resp_length` it leaves, and the bytes it takes off. -/
structure Head where
  ret : Int
  respLength : UInt32
  used : ℕ

/-- Where the client is resumed. -/
inductive Pc
  | start
  | dns
  | connect
  | send
  | recv
  | onConnect
  | onRecv
  | close
  | done
deriving DecidableEq

/-- What the pending call returns; with it the address and socket, the request, the parser's answer about a
segment, and if a failing `vsfip_tcp_recv` leaves `buf`. -/
inductive Ret
  | notReady
  | start (pton sock : Bool)
  | dns (err : Int) (sock : Bool)
  | connect (err : Int) (request : Option (List UInt8))
  | send (err : Int)
  | recv (data : List UInt8) (head : Head)
  | recvFail (err : Int) (kept : Bool)
  | onConnect (err : Int)
  | onRecv (err : Int)
  | close (err : Int)

/-- What the calls returned: errors in order, a request not sent, a segment that ended in the header, a
failing receive behind it, and how the closing went. -/
structure Log where
  failed : List Int
  sendFailed : Bool
  headOpen : Bool
  staleFail : Bool
  closeWaits : ℕ
  closeRet : Int

/-- `struct vsfip_httpc_param_t` in a download: its callbacks, the block with `err`, and what was done. -/
structure Client where
  onConnect : Bool
  onRecv : Bool
  output : Bool
  pc : Pc
  err : Int
  so : Bool
  buf : Option Buf
  respLength : UInt32
  respCurptr : UInt32
  fresh : ℕ
  sent : List Buf
  released : List ℕ
  closed : ℕ
  delivered : List (UInt32 × List UInt8)
  ret : Option Int
  log : Log

namespace Client

variable (s : Client)

/-- `VSFERR_NOT_ENOUGH_RESOURCES`. -/
def noResources : Int := -5

/-- A step fails. -/
def fails (err : Int) : Client := { s with log := { s.log with failed := s.log.failed ++ [err] } }

/-- The client returns before it has a socket. -/
def leave (err : Int) : Client := { s with pc := .done, ret := some err }

/-- `goto tcp_close`. -/
def tcpClose (err : Int) : Client := { s with err, pc := .close }

/-- From the label `close`. -/
def finish : Client :=
  { s with
    released := s.released ++ s.buf.toList.map Buf.id
    closed := if s.so then s.closed + 1 else s.closed
    pc := .done
    ret := some s.err }

/-- `vsfip_socket`. -/
def socket (sock : Bool) : Client :=
  if sock then { s with so := true, pc := .connect } else (s.fails noResources).leave noResources

/-- `vsfip_buffer_release`. -/
def release : Client := { s with released := s.released ++ s.buf.toList.map Buf.id }

/-- The end of the loop body. -/
def next : Client := { s.release with buf := none, pc := .recv }

/-- Behind `on_recv`. -/
def received (size : ℕ) : Client :=
  let s : Client := { s with respCurptr := s.respCurptr + UInt32.ofNat size }
  if s.respLength ≤ s.respCurptr then s.tcpClose 0 else s.next

/-- From the test for `on_recv`. -/
def deliver (b : Buf) : Client :=
  if 0 < s.respLength ∧ b.data ≠ [] then
    if s.onRecv then { s with pc := .onRecv } else s.received b.data.length
  else s.next

/-- Behind the header parser. -/
def parsed (b : Buf) (head : Head) : Client :=
  let s : Client := { s with respLength := head.respLength }
  if head.ret > 0 then { s.release with pc := .recv, log := { s.log with headOpen := true } }
  else if head.ret < 0 then (s.fails head.ret).tcpClose head.ret
  else
    let b := { b with data := b.data.drop head.used }
    let s : Client := { s with buf := some b }
    if s.respLength = 0 ∨ s.output = false then s.tcpClose 0
    else if s.onConnect then { s with pc := .onConnect }
    else s.deliver b

/-- `vsfip_httpc_get`, from the return of a call to the next entry. -/
def step : Ret → Client
  | .notReady =>
    { s with err := 0, log := { s.log with closeWaits := if s.pc = .close then s.log.closeWaits + 1 else s.log.closeWaits } }
  | .start pton sock => if pton then s.socket sock else { s with pc := .dns }
  | .dns err sock => if err < 0 then (s.fails err).leave err else s.socket sock
  | .connect err request =>
    if err < 0 then { s.fails err with err }.finish
    else
      match request with
      | none => (s.fails noResources).tcpClose noResources
      | some data => { s with buf := some ⟨s.fresh, data⟩, fresh := s.fresh + 1, pc := .send }
  | .send err =>
    let s : Client := { s with sent := s.sent ++ s.buf.toList }
    if err < 0 then { s.fails err with log := { (s.fails err).log with sendFailed := true } }.tcpClose err
    else { s with buf := none, respLength := 0, respCurptr := 0, pc := .recv }
  | .recv data head =>
    let b : Buf := ⟨s.fresh, data⟩
    let s : Client := { s with buf := some b, fresh := s.fresh + 1, log := { s.log with headOpen := false } }
    if s.respLength = 0 then s.parsed b head else s.deliver b
  | .recvFail err kept =>
    let s : Client := { s.fails err with
      buf := if kept then s.buf else none
      log := { (s.fails err).log with staleFail := kept && s.log.headOpen } }
    s.tcpClose err
  | .onConnect err =>
    match s.buf with
    | some b => if err < 0 then (s.fails err).tcpClose err else s.deliver b
    | none => s
  | .onRecv err =>
    match s.buf with
    | some b =>
      let s : Client := { s with delivered := s.delivered ++ [(s.respCurptr, b.data)] }
      if err < 0 then (s.fails err).tcpClose err else s.received b.data.length
    | none => s
  | .close err =>
    let s : Client := { s with log := { s.log with closeRet := err } }
    let s : Client := if err < 0 then { s.fails err with err := if s.err = 0 then err else s.err } else s
    s.finish

/-- The call that is pending returns, with an error code that is not positive. -/
def Legal : Ret → Prop
  | .notReady => s.pc ≠ .start ∧ s.pc ≠ .done
  | .start _ _ => s.pc = .start
  | .dns err _ => s.pc = .dns ∧ err ≤ 0
  | .connect err _ => s.pc = .connect ∧ err ≤ 0
  | .send err => s.pc = .send ∧ err ≤ 0
  | .recv _ _ => s.pc = .recv
  | .recvFail err _ => s.pc = .recv ∧ err < 0
  | .onConnect err => s.pc = .onConnect ∧ err ≤ 0
  | .onRecv err => s.pc = .onRecv ∧ err ≤ 0
  | .close err => s.pc = .close ∧ err ≤ 0

/-- How often a buffer was handed over or released. -/
def gone (k : ℕ) : ℕ := (s.sent.map Buf.id).count k + s.released.count k

/-- **What is left in the end**: every buffer handed over or released once, the socket closed once, and the
first error. -/
structure Clean : Prop where
  once : ∀ k, s.gone k = if k < s.fresh then 1 else 0
  closed : s.closed = if s.so then 1 else 0
  ret : s.ret = some (s.log.failed.headD 0)

end Client

/-- Before the call, with `buf` set to `NULL`. -/
structure Start (s : Client) : Prop where
  pc : s.pc = .start
  so : s.so = false
  buf : s.buf = none
  fresh : s.fresh = 0
  sent : s.sent = []
  released : s.released = []
  closed : s.closed = 0
  log : s.log = ⟨[], false, false, false, 0, 0⟩

/-- All downloads. -/
def system : System Client Ret where
  start := Start
  step s r s' := s.Legal r ∧ s' = s.step r

/-! ### What holds at each entry -/

/-- Every buffer is gone once, or is one of `held`. -/
def Ledger (s : Client) (held : List ℕ) : Prop := ∀ k, s.gone k + held.count k = if k < s.fresh then 1 else 0

/-- Nothing has failed. -/
structure Log.Quiet (l : Log) : Prop where
  failed : l.failed = []
  sendFailed : l.sendFailed = false
  staleFail : l.staleFail = false
  closeWaits : l.closeWaits = 0

/-- A buffer will be released, or was released, that was gone. -/
def Log.bad (l : Log) : Bool := l.sendFailed || l.staleFail

/-- The buffer held at `tcp_close`. -/
def Held (s : Client) : Prop :=
  if s.log.bad then ∃ b, s.buf = some b ∧ 0 < s.gone b.id else Ledger s (s.buf.toList.map Buf.id)

/-- No buffer yet. -/
structure Early (s : Client) (so : Bool) : Prop where
  quiet : s.log.Quiet
  headOpen : s.log.headOpen = false
  so : s.so = so
  closed : s.closed = 0
  buf : s.buf = none
  ledger : Ledger s []

/-- The client has the buffer `b`. -/
structure Busy (s : Client) (b : Buf) : Prop where
  quiet : s.log.Quiet
  headOpen : s.log.headOpen = false
  so : s.so = true
  closed : s.closed = 0
  buf : s.buf = some b
  ledger : Ledger s [b.id]

/-- The client waits for a segment; `buf` is set after one that ended in the header. -/
structure Waiting (s : Client) : Prop where
  quiet : s.log.Quiet
  headOpen : s.log.headOpen = s.buf.isSome
  so : s.so = true
  closed : s.closed = 0
  ledger : Ledger s []
  stale : ∀ b, s.buf = some b → 0 < s.gone b.id

/-- The socket is there to be closed. -/
structure Closing (s : Client) : Prop where
  so : s.so = true
  closed : s.closed = 0
  held : Held s
  neg : ∀ e ∈ s.log.failed, e < 0
  err : s.err = if s.log.closeWaits = 0 then s.log.failed.headD 0 else 0

structure Done (s : Client) : Prop where
  closed : s.closed = if s.so then 1 else 0
  gone : if s.log.bad then ∃ k, 1 < s.gone k else Ledger s []
  ret : s.ret = some (if s.log.closeWaits = 0 then s.log.failed.headD 0 else s.log.closeRet)

def Place (s : Client) : Prop :=
  match s.pc with
  | .start | .dns => Early s false
  | .connect => Early s true
  | .send | .onConnect | .onRecv => ∃ b, Busy s b
  | .recv => Waiting s
  | .close => Closing s
  | .done => Done s

/-! ### The ways out -/

variable {s : Client} {b : Buf} {e : Int} {so : Bool}

theorem Log.Quiet.bad {l : Log} (h : l.Quiet) : l.bad = false := by
  unfold Log.bad
  rw [h.sendFailed, h.staleFail]
  rfl

theorem gone_release (s : Client) (k : ℕ) : s.release.gone k = s.gone k + (s.buf.toList.map Buf.id).count k := by
  simp only [Client.gone, Client.release, count_append]
  omega

theorem Ledger.release (h : Ledger s (s.buf.toList.map Buf.id)) : Ledger s.release [] := fun k => by
  rw [gone_release, count_nil, add_zero]
  exact h k

theorem Ledger.get (h : Ledger s []) (data : List UInt8) :
    Ledger { s with buf := some ⟨s.fresh, data⟩, fresh := s.fresh + 1 } [s.fresh] := by
  intro k
  have hk := h k
  rw [count_nil, add_zero] at hk
  show s.gone k + [s.fresh].count k = if k < s.fresh + 1 then 1 else 0
  rw [hk, count_singleton]
  rcases lt_trichotomy k s.fresh with hlt | rfl | hgt
  · simp [hlt, hlt.trans (Nat.lt_succ_self _), hlt.ne']
  · simp
  · simp [lt_asymm hgt, hgt.ne, not_lt.mpr (Nat.succ_le_of_lt hgt)]

theorem finish_done (hso : s.so = true) (hclosed : s.closed = 0) (hheld : Held s)
    (hret : s.err = if s.log.closeWaits = 0 then s.log.failed.headD 0 else s.log.closeRet) : Done s.finish := by
  have hgone : ∀ k, s.finish.gone k = s.release.gone k := fun k => rfl
  refine ⟨?_, ?_, congrArg some hret⟩
  · show (if s.so then s.closed + 1 else s.closed) = if s.so then 1 else 0
    rw [hso, hclosed]
  · show if s.log.bad then _ else _
    unfold Held at hheld
    split_ifs at hheld ⊢ with hbad
    · obtain ⟨b, hb, hpos⟩ := hheld
      refine ⟨b.id, ?_⟩
      rw [hgone, gone_release, hb, toList_some, map_singleton, count_singleton_self]
      omega
    · exact hheld.release

theorem Busy.held (h : Busy s b) : Held s := by
  unfold Held
  rw [h.quiet.bad, if_neg Bool.false_ne_true, h.buf]
  exact h.ledger

theorem Busy.close (h : Busy s b) : Place (s.tcpClose 0) := by
  refine ⟨h.so, h.closed, h.held, ?_, ?_⟩
  · show ∀ e ∈ s.log.failed, e < 0
    rw [h.quiet.failed]
    simp
  · show 0 = if s.log.closeWaits = 0 then s.log.failed.headD 0 else 0
    rw [h.quiet.failed, h.quiet.closeWaits]
    rfl

/-- The first step that fails; what it does to the buffers is said apart. -/
theorem fail_close {s' : Client} (hs' : s'.log.failed = [e]) (hw : s'.log.closeWaits = 0) (he : e < 0)
    (hso : s'.so = true) (hclosed : s'.closed = 0) (hheld : Held s') : Place (s'.tcpClose e) := by
  refine ⟨hso, hclosed, hheld, ?_, ?_⟩
  · show ∀ x ∈ s'.log.failed, x < 0
    rw [hs']
    simpa using he
  · show e = if s'.log.closeWaits = 0 then s'.log.failed.headD 0 else 0
    rw [hs', hw]
    rfl

theorem Log.Quiet.fails (h : s.log.Quiet) (e : Int) : (s.fails e).log.failed = [e] := by
  show s.log.failed ++ [e] = [e]
  rw [h.failed, nil_append]

theorem Busy.fail (h : Busy s b) (he : e < 0) : Place ((s.fails e).tcpClose e) :=
  fail_close (h.quiet.fails e) h.quiet.closeWaits he h.so h.closed h.held

theorem Busy.next (h : Busy s b) : Place s.next := by
  have hl : Ledger s (s.buf.toList.map Buf.id) := by
    rw [h.buf]
    exact h.ledger
  exact ⟨h.quiet, h.headOpen, h.so, h.closed, hl.release, nofun⟩

theorem Busy.received (h : Busy s b) (n : ℕ) : Place (s.received n) := by
  have h' : Busy { s with respCurptr := s.respCurptr + UInt32.ofNat n } b :=
    ⟨h.quiet, h.headOpen, h.so, h.closed, h.buf, h.ledger⟩
  unfold Client.received
  dsimp only
  split_ifs
  · exact h'.close
  · exact h'.next

theorem Busy.deliver (h : Busy s b) : Place (s.deliver b) := by
  unfold Client.deliver
  split_ifs
  · exact ⟨b, h.quiet, h.headOpen, h.so, h.closed, h.buf, h.ledger⟩
  · exact h.received _
  · exact h.next

theorem Busy.parsed (h : Busy s b) (head : Head) : Place (s.parsed b head) := by
  unfold Client.parsed
  dsimp only
  split_ifs
  · -- the buffer is released, and `buf` stays
    have hl : Ledger s (s.buf.toList.map Buf.id) := by
      rw [h.buf]
      exact h.ledger
    have hsome : s.buf.isSome = true := by
      rw [h.buf]
      rfl
    refine ⟨⟨h.quiet.failed, h.quiet.sendFailed, h.quiet.staleFail, h.quiet.closeWaits⟩, hsome.symm, h.so, h.closed,
      hl.release, fun x hx => ?_⟩
    obtain rfl : b = x := some.inj (h.buf.symm.trans hx)
    show 0 < s.release.gone b.id
    rw [gone_release, h.buf, toList_some, map_singleton, count_singleton_self]
    exact Nat.succ_pos _
  · next hneg =>
    have h' : Busy { s with respLength := head.respLength } b := ⟨h.quiet, h.headOpen, h.so, h.closed, h.buf, h.ledger⟩
    exact h'.fail hneg
  all_goals
    have h' : Busy { s with respLength := head.respLength, buf := some { b with data := b.data.drop head.used } }
        { b with data := b.data.drop head.used } := ⟨h.quiet, h.headOpen, h.so, h.closed, rfl, h.ledger⟩
  · exact h'.close
  · exact ⟨_, h'.quiet, h'.headOpen, h'.so, h'.closed, h'.buf, h'.ledger⟩
  · exact h'.deliver

theorem Waiting.get (h : Waiting s) (data : List UInt8) :
    Busy { s with buf := some ⟨s.fresh, data⟩, fresh := s.fresh + 1, log := { s.log with headOpen := false } }
      ⟨s.fresh, data⟩ :=
  ⟨⟨h.quiet.failed, h.quiet.sendFailed, h.quiet.staleFail, h.quiet.closeWaits⟩, rfl, h.so, h.closed, rfl, h.ledger.get data⟩

theorem Early.leave (h : Early s false) (e : Int) : Place ((s.fails e).leave e) := by
  refine ⟨?_, ?_, ?_⟩
  · show s.closed = if s.so then 1 else 0
    rw [h.closed, h.so]
    rfl
  · show if s.log.bad then _ else _
    rw [h.quiet.bad, if_neg Bool.false_ne_true]
    exact h.ledger
  · show some e = some (if s.log.closeWaits = 0 then (s.fails e).log.failed.headD 0 else s.log.closeRet)
    rw [h.quiet.closeWaits, h.quiet.fails]
    rfl

theorem Early.socket (h : Early s false) (sock : Bool) : Place (s.socket sock) := by
  unfold Client.socket
  split_ifs
  · exact ⟨h.quiet, h.headOpen, rfl, h.closed, h.buf, h.ledger⟩
  · exact h.leave _

theorem Early.held (h : Early s so) : Held s := by
  unfold Held
  rw [h.quiet.bad, if_neg Bool.false_ne_true, h.buf]
  exact h.ledger

/-! ### One return -/

theorem Place.suspend (h : Place s) (hl : s.Legal .notReady) : Place (s.step .notReady) := by
  have hlog : s.pc ≠ .close → (s.step .notReady).log = s.log := fun hpc => by
    unfold Client.step
    rw [if_neg hpc]
  unfold Place at h ⊢
  rw [show (s.step .notReady).pc = s.pc from rfl]
  cases hpc : s.pc with
  | start => exact absurd hpc hl.1
  | done => exact absurd hpc hl.2
  | dns | connect =>
    rw [hpc] at h
    have hl := hlog (hpc ▸ nofun)
    exact ⟨hl ▸ h.quiet, hl ▸ h.headOpen, h.so, h.closed, h.buf, h.ledger⟩
  | send | onConnect | onRecv =>
    rw [hpc] at h
    obtain ⟨b, h⟩ := h
    have hl := hlog (hpc ▸ nofun)
    exact ⟨b, hl ▸ h.quiet, hl ▸ h.headOpen, h.so, h.closed, h.buf, h.ledger⟩
  | recv =>
    rw [hpc] at h
    have hl := hlog (hpc ▸ nofun)
    exact ⟨hl ▸ h.quiet, hl ▸ h.headOpen, h.so, h.closed, h.ledger, h.stale⟩
  | close =>
    rw [hpc] at h
    refine ⟨h.so, h.closed, h.held, h.neg, ?_⟩
    show 0 = if (if s.pc = .close then s.log.closeWaits + 1 else s.log.closeWaits) = 0 then _ else _
    rw [if_pos hpc, if_neg (Nat.succ_ne_zero _)]

theorem Busy.send (h : Busy s b) (e : Int) : Place (s.step (.send e)) := by
  have hgone : ∀ k, Client.gone { s with sent := s.sent ++ s.buf.toList } k = s.gone k + [b.id].count k := fun k => by
    simp only [Client.gone, h.buf, toList_some, map_append, map_singleton, count_append]
    omega
  unfold Client.step
  dsimp only
  split_ifs with hneg
  · refine fail_close (h.quiet.fails e) h.quiet.closeWaits hneg h.so h.closed ?_
    show if (true || s.log.staleFail) then _ else _
    rw [Bool.true_or, if_pos rfl]
    refine ⟨b, h.buf, ?_⟩
    show 0 < Client.gone { s with sent := s.sent ++ s.buf.toList } b.id
    rw [hgone, count_singleton_self]
    exact Nat.succ_pos _
  · refine ⟨h.quiet, h.headOpen, h.so, h.closed, fun k => ?_, nofun⟩
    show Client.gone { s with sent := s.sent ++ s.buf.toList } k + _ = _
    rw [hgone, count_nil, add_zero]
    exact h.ledger k

theorem Waiting.fail (h : Waiting s) (he : e < 0) (kept : Bool) : Place (s.step (.recvFail e kept)) := by
  refine fail_close (h.quiet.fails e) h.quiet.closeWaits he h.so h.closed ?_
  show if (s.log.sendFailed || (kept && s.log.headOpen)) then _ else _
  rw [h.quiet.sendFailed, Bool.false_or, h.headOpen]
  cases kept with
  | false => exact h.ledger
  | true =>
    cases hb : s.buf with
    | none => exact h.ledger
    | some b => exact ⟨b, rfl, h.stale b hb⟩

theorem Closing.close (h : Closing s) (he : e ≤ 0) : Place (s.step (.close e)) := by
  have herr := h.err
  unfold Client.step
  dsimp only
  by_cases hneg : e < 0
  · rw [if_pos hneg]
    refine finish_done h.so h.closed h.held ?_
    show (if s.err = 0 then e else s.err) = if s.log.closeWaits = 0 then (s.log.failed ++ [e]).headD 0 else e
    cases hf : s.log.failed with
    | nil =>
      rw [hf, headD_nil, ite_self] at herr
      rw [if_pos herr]
      exact (ite_self e).symm
    | cons x xs =>
      have hx : x < 0 := h.neg x (hf ▸ mem_cons_self)
      rw [hf, headD_cons] at herr
      rw [herr]
      by_cases hw : s.log.closeWaits = 0
      · rw [if_pos hw, if_pos hw, if_neg hx.ne]
        rfl
      · rw [if_neg hw, if_neg hw, if_pos rfl]
  · obtain rfl : e = 0 := by omega
    rw [if_neg hneg]
    exact finish_done h.so h.closed h.held herr

/-- **One return**, a case for each call. -/
theorem Place.step (h : Place s) {r : Ret} (hl : s.Legal r) : Place (s.step r) := by
  cases r with
  | notReady => exact h.suspend hl
  | start pton sock =>
    unfold Place at h
    rw [show s.pc = .start from hl] at h
    unfold Client.step
    dsimp only
    split_ifs
    · exact h.socket sock
    · exact ⟨h.quiet, h.headOpen, h.so, h.closed, h.buf, h.ledger⟩
  | dns err sock =>
    unfold Place at h
    rw [hl.1] at h
    unfold Client.step
    dsimp only
    split_ifs
    · exact h.leave err
    · exact h.socket sock
  | connect err request =>
    unfold Place at h
    rw [hl.1] at h
    unfold Client.step
    dsimp only
    split_ifs with hneg
    · refine finish_done h.so h.closed h.held ?_
      show err = if s.log.closeWaits = 0 then (s.fails err).log.failed.headD 0 else s.log.closeRet
      rw [h.quiet.closeWaits, h.quiet.fails]
      rfl
    · cases request with
      | none => exact fail_close (h.quiet.fails _) h.quiet.closeWaits (by decide) h.so h.closed h.held
      | some data => exact ⟨_, h.quiet, h.headOpen, h.so, h.closed, rfl, h.ledger.get data⟩
  | send err =>
    unfold Place at h
    rw [hl.1] at h
    obtain ⟨b, h⟩ := h
    exact h.send err
  | recv data head =>
    unfold Place at h
    rw [show s.pc = .recv from hl] at h
    unfold Client.step
    dsimp only
    split_ifs
    · exact (h.get data).parsed head
    · exact (h.get data).deliver
  | recvFail err kept =>
    unfold Place at h
    rw [hl.1] at h
    exact h.fail hl.2 kept
  | onConnect err =>
    unfold Place at h
    rw [hl.1] at h
    obtain ⟨b, h⟩ := h
    unfold Client.step
    rw [h.buf]
    dsimp only
    split_ifs with hneg
    · exact h.fail hneg
    · exact h.deliver
  | onRecv err =>
    unfold Place at h
    rw [hl.1] at h
    obtain ⟨b, h⟩ := h
    unfold Client.step
    rw [h.buf]
    have h' : Busy { s with buf := some b, delivered := s.delivered ++ [(s.respCurptr, b.data)] } b :=
      ⟨h.quiet, h.headOpen, h.so, h.closed, rfl, h.ledger⟩
    dsimp only
    split_ifs with hneg
    · exact h'.fail hneg
    · exact h'.received _
  | close err =>
    unfold Place at h
    rw [hl.1] at h
    exact h.close hl.2

theorem Start.place (h : Start s) : Place s := by
  unfold Place
  rw [h.pc]
  refine ⟨?_, ?_, h.so, h.closed, h.buf, fun k => ?_⟩
  · rw [h.log]
    exact ⟨rfl, rfl, rfl, rfl⟩
  · rw [h.log]
  · rw [Client.gone, h.sent, h.released, h.fresh]
    simp

theorem reach_place (h : system.Reach s) : Place s := by
  refine h.invariant (P := Place) (fun _ hs => hs.place) fun s r s' _ hp hs => ?_
  obtain ⟨hl, rfl⟩ := hs
  exact hp.step hl

/-- **What the client cleans up**: all is gone once and the first error returned exactly if the request was
sent, no receive failed behind a segment that ended in the header with `buf` left, and the closing was not
suspended or returned that error. -/
theorem clean_iff (h : system.Reach s) (hpc : s.pc = .done) :
    s.Clean ↔ s.log.sendFailed = false ∧ s.log.staleFail = false ∧
      (s.log.closeWaits = 0 ∨ s.log.closeRet = s.log.failed.headD 0) := by
  have hd := reach_place h
  unfold Place at hd
  rw [hpc] at hd
  have hbad : s.log.bad = false ↔ s.log.sendFailed = false ∧ s.log.staleFail = false := by
    unfold Log.bad
    exact Bool.or_eq_false_iff
  have hret : s.ret = some (s.log.failed.headD 0) ↔ s.log.closeWaits = 0 ∨ s.log.closeRet = s.log.failed.headD 0 := by
    rw [hd.ret, some_inj]
    by_cases hw : s.log.closeWaits = 0
    · simp [hw]
    · simp [hw]
  rw [← and_assoc, ← hbad, ← hret]
  have hgone := hd.gone
  constructor
  · intro hc
    refine ⟨?_, hc.ret⟩
    by_contra hb
    rw [if_pos (by simpa using hb)] at hgone
    obtain ⟨k, hk⟩ := hgone
    have honce := hc.once k
    split_ifs at honce <;> omega
  · rintro ⟨hb, hr⟩
    rw [hb, if_neg Bool.false_ne_true] at hgone
    refine ⟨fun k => ?_, hd.closed, hr⟩
    have hk := hgone k
    rwa [count_nil, add_zero] at hk

/-! ### Runs -/

/-- A client before a download. -/
def idle : Client where
  onConnect := false
  onRecv := true
  output := true
  pc := .start
  err := 0
  so := false
  buf := none
  respLength := 0
  respCurptr := 0
  fresh := 0
  sent := []
  released := []
  closed := 0
  delivered := []
  ret := none
  log := ⟨[], false, false, false, 0, 0⟩

theorem idle_start : Start idle := ⟨rfl, rfl, rfl, rfl, rfl, rfl, rfl, rfl⟩

theorem reach_step (h : system.Reach s) {r : Ret} (hl : s.Legal r) : system.Reach (s.step r) := h.step ⟨hl, rfl⟩

theorem reach_request : system.Reach ((idle.step (.start true true)).step (.connect 0 (some [71]))) :=
  reach_step (reach_step (r := .start true true) (.start idle_start) rfl) ⟨rfl, le_refl _⟩

theorem clean_iff_one : ∃ s : Client, system.Reach s ∧ s.delivered = [(0, [7])] ∧ s.Clean := by
  have h1 := reach_step reach_request (r := .send 0) ⟨rfl, le_refl _⟩
  have h2 := reach_step h1 (r := .recv [1, 7] ⟨0, 1, 1⟩) rfl
  have h3 := reach_step h2 (r := .onRecv 0) ⟨rfl, le_refl _⟩
  have h4 := reach_step h3 (r := .close 0) ⟨rfl, le_refl _⟩
  exact ⟨_, h4, rfl, (clean_iff h4 rfl).mpr ⟨rfl, rfl, .inl rfl⟩⟩

/-- **An error is lost, and a buffer released twice**: a receive fails and the closing is suspended; a
request is not sent. -/
theorem cleanup_slips :
    (∃ s : Client, system.Reach s ∧ s.pc = .done ∧ s.log.failed = [-6] ∧ s.ret = some 0 ∧ ¬ s.Clean) ∧
      ∃ s : Client, system.Reach s ∧ s.pc = .done ∧ s.log.failed = [-6] ∧ s.gone 0 = 2 ∧ ¬ s.Clean := by
  constructor
  · have h1 := reach_step reach_request (r := .send 0) ⟨rfl, le_refl _⟩
    have h2 := reach_step h1 (r := .recvFail (-6) false) ⟨rfl, by decide⟩
    have h3 := reach_step h2 (r := .notReady) ⟨nofun, nofun⟩
    have h4 := reach_step h3 (r := .close 0) ⟨rfl, le_refl _⟩
    exact ⟨_, h4, rfl, rfl, rfl, fun hc => absurd hc.ret (by decide)⟩
  · have h1 := reach_step reach_request (r := .send (-6)) ⟨rfl, by decide⟩
    have h2 := reach_step h1 (r := .close 0) ⟨rfl, le_refl _⟩
    exact ⟨_, h2, rfl, rfl, rfl, fun hc => absurd (hc.once 0) (by decide)⟩

end Httpc
end Vsf
