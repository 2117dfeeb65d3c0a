/-
# The event queues of vsfsm.c

`vsfsm_post_evt`, `vsfsm_post_evt_pending`, `vsfsm_poll`, `vsfsm_init` and `vsfsm_fini`, with
preemption and without the hierarchical machines. A post either puts an element into the ring or
calls the handler, which is part of the result. `vsfsm_poll` is cut where other contexts can come in
(`pollFetch`, `pollRetire`).
-/
import Mathlib

namespace Vsf

/-- `vsfsm_evt_t`. -/
abbrev Evt := Int32

namespace Evt

/-- `VSFSM_EVT_INVALID`. -/
def invalid : Evt := -1

/-- `VSFSM_EVT_INIT`. -/
def init : Evt := 2

/-- `VSFSM_EVT_TIMER`. -/
def timer : Evt := 4

/-- `VSFSM_EVT_USER`. -/
def user : Evt := 0x10

/-- `VSFSM_EVT_ENTER` and `VSFSM_EVT_EXIT`. -/
def enter : Evt := 0x6000
def exit : Evt := 0x6001

/-- `evt & VSFSM_EVT_INSTANT_MSK`. -/
def instant (e : Evt) : Bool := e &&& 0x2000 ≠ 0

end Evt

/-- The results of the framework's functions. -/
inductive Err where
  | none
  | fail
  | notEnoughResources
  | notReady
  | bug
deriving DecidableEq

/-- `struct vsfsm_evtq_element_t`. -/
structure Element (σ : Type*) where
  sm : Option σ
  evt : Evt
deriving DecidableEq

/-- `struct vsfsm_evtq_t`. -/
structure Evtq (σ : Type*) where
  size : ℕ
  queue : ℕ → Element σ
  head : ℕ
  tail : ℕ
  evtCount : UInt16
  tickEvtCount : UInt16

/-- The part of `struct vsfsm_t` the queues use. -/
structure Sm (κ : Type*) where
  evtq : Option κ
  evtCount : UInt32

/-- The queues and the state machines of a program. -/
structure World (σ κ : Type*) where
  evtqs : κ → Evtq σ
  sms : σ → Sm κ

/-- What a post returns, the world behind it, and the handler it called. -/
structure Outcome (σ κ : Type*) where
  err : Err
  world : World σ κ
  call : Option (σ × Evt)

variable {σ κ : Type*} [DecidableEq σ] [DecidableEq κ]

namespace Evtq

/-- The slot behind `i`. -/
def next (q : Evtq σ) (i : ℕ) : ℕ := if i = q.size - 1 then 0 else i + 1

/-- The write of an element at the tail. -/
def put (q : Evtq σ) (sm : σ) (evt : Evt) : Evtq σ :=
  { q with
    queue := Function.update q.queue q.tail ⟨some sm, evt⟩
    tail := q.next q.tail
    evtCount := q.evtCount + 1 }

/-- The walk of `vsfsm_fini` from `tmp` to `tail`, at most one turn. -/
def finiLoop (q : Evtq σ) (sm : σ) : ℕ → (ℕ → Element σ) → ℕ → Option (ℕ → Element σ)
  | 0, _, _ => none
  | f + 1, queue, tmp =>
    if tmp = q.tail then some queue
    else
      let queue := if (queue tmp).sm = some sm then Function.update queue tmp { queue tmp with sm := none } else queue
      finiLoop q sm f queue (if tmp + 1 ≥ q.size then 0 else tmp + 1)

end Evtq

namespace World

/-- Write a queue. -/
def setEvtq (w : World σ κ) (k : κ) (q : Evtq σ) : World σ κ :=
  { w with evtqs := Function.update w.evtqs k q }

/-- Write a state machine. -/
def setSm (w : World σ κ) (sm : σ) (s : Sm κ) : World σ κ := { w with sms := Function.update w.sms sm s }

omit [DecidableEq σ] in
@[simp] theorem setEvtq_evtqs (w : World σ κ) (k : κ) (q : Evtq σ) :
    (w.setEvtq k q).evtqs = Function.update w.evtqs k q := rfl

omit [DecidableEq σ] in
@[simp] theorem setEvtq_sms (w : World σ κ) (k : κ) (q : Evtq σ) : (w.setEvtq k q).sms = w.sms := rfl

omit [DecidableEq κ] in
@[simp] theorem setSm_evtqs (w : World σ κ) (sm : σ) (s : Sm κ) : (w.setSm sm s).evtqs = w.evtqs := rfl

omit [DecidableEq κ] in
@[simp] theorem setSm_sms (w : World σ κ) (sm : σ) (s : Sm κ) :
    (w.setSm sm s).sms = Function.update w.sms sm s := rfl

/-- `vsfsm_dispatch_evt` calls the handler. -/
def dispatchEvt (w : World σ κ) (sm : σ) (evt : Evt) : Outcome σ κ := ⟨.none, w, some (sm, evt)⟩

/-- `vsfsm_evtq_post`, for a state machine of the queue `k`. -/
def evtqPost (w : World σ κ) (k : κ) (sm : σ) (evt : Evt) : Outcome σ κ :=
  let q := w.evtqs k
  if q.evtCount.toNat ≥ q.size then ⟨.notEnoughResources, w, none⟩
  else if evt = Evt.timer ∧ q.tickEvtCount ≠ 0 then ⟨.none, w, none⟩
  else
    let q := if evt = Evt.timer then { q with tickEvtCount := q.tickEvtCount + 1 } else q
    let s := w.sms sm
    ⟨.none, (w.setEvtq k (q.put sm evt)).setSm sm { s with evtCount := s.evtCount + 1 }, none⟩

/-- `vsfsm_post_evt`, called while `vsfsm_cur_evtq` is `cur`. -/
def postEvt (w : World σ κ) (cur : Option κ) (sm : σ) (evt : Evt) : Outcome σ κ :=
  let s := w.sms sm
  match s.evtq with
  | none => w.dispatchEvt sm evt
  | some k =>
    if some k ≠ cur ∧ evt.instant then ⟨.fail, w, none⟩
    else if some k ≠ cur ∨ (¬ evt.instant ∧ s.evtCount ≠ 0) then w.evtqPost k sm evt
    else w.dispatchEvt sm evt

/-- `vsfsm_post_evt_pending`. -/
def postEvtPending (w : World σ κ) (sm : σ) (evt : Evt) : Outcome σ κ :=
  if evt.instant then ⟨.fail, w, none⟩
  else
    match (w.sms sm).evtq with
    | none => w.dispatchEvt sm evt
    | some k => w.evtqPost k sm evt

/-- `vsfsm_init` up to the handler; the post of `VSFSM_EVT_INIT` follows its return. -/
def init (w : World σ κ) (cur : Option κ) (sm : σ) : Outcome σ κ :=
  ⟨.none, w.setSm sm ⟨cur, 0⟩, some (sm, Evt.enter)⟩

/-- `vsfsm_fini`. -/
def fini (w : World σ κ) (sm : σ) : Option (World σ κ) :=
  match (w.sms sm).evtq with
  | none => some w
  | some k =>
    let q := w.evtqs k
    (q.finiLoop sm (q.size + 1) q.queue q.head).map fun queue => w.setEvtq k { q with queue }

/-- The start of an iteration of `vsfsm_poll`: `tmp` and the moved `head`. -/
def pollFetch (w : World σ κ) (k : κ) : Element σ × World σ κ :=
  let q := w.evtqs k
  (q.queue q.head, w.setEvtq k { q with head := q.next q.head })

/-- The counters of an iteration, with the interrupts disabled. -/
def pollRetire (w : World σ κ) (k : κ) (tmp : Element σ) : World σ κ :=
  let w := match tmp.sm with
    | none => w
    | some sm => w.setSm sm { w.sms sm with evtCount := (w.sms sm).evtCount - 1 }
  let q := w.evtqs k
  let q := { q with evtCount := q.evtCount - 1 }
  w.setEvtq k (if tmp.evt = Evt.timer then { q with tickEvtCount := q.tickEvtCount - 1 } else q)

end World

end Vsf
