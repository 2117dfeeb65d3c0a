/-
# The timers of vsftimer.c

`struct vsftimer_info_t`: the timers that run are in one `vsfq` list, ordered by the 32-bit deadline
`node.addr`. A call that allocates is given the result of `alloc`, and calls of `free` are written
down in `freed`; `vsftimer_init_handler` reads a timer's fields after it. The handler is cut into
the turns of its loop (`turn`), since those notified may call any function of the module.
-/
import Mathlib
import Vsf.Lib.Chain
import Vsf.Buffer.Queue
import Vsf.Framework.Evtq

namespace Vsf

open Linked List Function Option

/-- What a timer does when it fires: `vsfsm_post_evt(sm, evt)` or `cb(param)`. -/
inductive Notice where
  | post (sm : Addr) (evt : Evt)
  | call (cb : Addr) (param : UInt32)
deriving DecidableEq

/-- `struct vsftimer_t` without its node; `word` is the union, `sm` or `cb`. -/
structure Timer where
  word : Option Addr
  param : UInt32
  evt : Evt
  interval : UInt32
  triggerCnt : ℤ

namespace Timer

/-- Whom the handler notifies for a timer, if anyone. -/
def notice (m : Timer) : Option Notice :=
  if m.evt ≠ Evt.invalid then m.word.map fun sm => .post sm m.evt
  else m.word.map fun cb => .call cb m.param

/-- `if (trigger_cnt > 0) trigger_cnt--`. -/
def countDown (m : Timer) : Timer :=
  if m.triggerCnt > 0 then { m with triggerCnt := m.triggerCnt - 1 } else m

/-- `sm && (timer->sm == sm)`. -/
def forSm (m : Timer) (sm : Option Addr) : Bool := sm ≠ none ∧ m.word = sm

@[simp] theorem countDown_word (m : Timer) : m.countDown.word = m.word := by unfold countDown; split <;> rfl
@[simp] theorem countDown_interval (m : Timer) : m.countDown.interval = m.interval := by
  unfold countDown; split <;> rfl
@[simp] theorem countDown_notice (m : Timer) : m.countDown.notice = m.notice := by unfold countDown; split <;> rfl

theorem countDown_triggerCnt (m : Timer) :
    m.countDown.triggerCnt = if m.triggerCnt > 0 then m.triggerCnt - 1 else m.triggerCnt := by
  unfold countDown
  split <;> rfl

end Timer

/-- `struct vsftimer_info_t`, the timers, and the calls of `mem_op->free`. -/
structure Timers where
  timerlist : Queue
  timer : Addr → Timer
  freed : List Addr

namespace Timers

/-- Writes the fields of a timer. -/
def set (w : Timers) (t : Addr) (m : Timer) : Timers := { w with timer := Function.update w.timer t m }

@[simp] theorem set_timerlist (w : Timers) (t : Addr) (m : Timer) : (w.set t m).timerlist = w.timerlist := rfl
@[simp] theorem set_freed (w : Timers) (t : Addr) (m : Timer) : (w.set t m).freed = w.freed := rfl
@[simp] theorem set_timer (w : Timers) (t : Addr) (m : Timer) :
    (w.set t m).timer = Function.update w.timer t m := rfl

/-- `timer->node.addr = a`. -/
def setAddr (w : Timers) (t : Addr) (a : UInt32) : Timers :=
  { w with timerlist := { w.timerlist with addr := Function.update w.timerlist.addr t a } }

/-! ### The functions -/

/-- `vsftimer_dequeue`. -/
def dequeue (w : Timers) (t : Addr) : Option Timers :=
  (w.timerlist.remove t).map fun q => { w with timerlist := q }

/-- `vsftimer_enqueue` at `ms`; the deadline is written even to a timer in the list. -/
def enqueue (w : Timers) (ms : UInt32) (t : Addr) : Option Timers :=
  ((w.setAddr t ((w.timer t).interval + ms)).dequeue t).bind fun w =>
    (w.timerlist.enqueue t).map fun q => { w with timerlist := q }

/-- `vsftimer_free`. -/
def free (w : Timers) (t : Addr) : Option Timers :=
  (w.dequeue t).map fun w => { w with freed := w.freed ++ [t] }

/-- `vsftimer_create`; `mem` is what `alloc` returned. -/
def create (w : Timers) (ms : UInt32) (mem sm : Option Addr) (interval : UInt32) (cnt : Int16) (evt : Evt) :
    Option (Timers × Option Addr) :=
  match mem with
  | none => some (w, none)
  | some t =>
    let w := w.set t { w.timer t with word := sm, evt, interval, triggerCnt := cnt.toInt }
    (w.enqueue ms t).map fun w => (w, some t)

/-- `vsftimer_create_cb`. -/
def createCb (w : Timers) (ms : UInt32) (mem : Option Addr) (interval : UInt32) (cnt : Int16)
    (cb : Option Addr) (param : UInt32) : Option (Timers × Option Addr) :=
  match mem with
  | none => some (w, none)
  | some t =>
    let w := w.set t { word := cb, param, evt := Evt.invalid, interval, triggerCnt := cnt.toInt }
    (w.enqueue ms t).map fun w => (w, some t)

/-- The loop of `vsftimer_clean_sm`, at the pointer `timer`. -/
def cleanLoop (sm : Option Addr) : ℕ → Timers → Option Addr → Option Timers
  | _, w, none => some w
  | 0, _, some _ => none
  | f + 1, w, some t =>
    let next := w.timerlist.next t
    if (w.timer t).forSm sm then (w.free t).bind fun w => cleanLoop sm f w next
    else cleanLoop sm f w next

/-- `vsftimer_clean_sm`. -/
def cleanSm (w : Timers) (sm : Option Addr) : Option Timers := cleanLoop sm walkFuel w w.timerlist.head

/-- A turn of `vsftimer_init_handler`, with `curTick` read before: who fired and was notified, or `none` at
the end. -/
def turn (w : Timers) (curTick ms : UInt32) : Option (Timers × Option (Addr × Option Notice)) :=
  match w.timerlist.head with
  | none => some (w, none)
  | some t =>
    if curTick ≥ w.timerlist.addr t then
      let w := w.set t (w.timer t).countDown
      (if (w.timer t).triggerCnt ≠ 0 then w.enqueue ms t else w.free t).map fun w =>
        (w, some (t, (w.timer t).notice))
    else some (w, none)

/-- The loop, with the clock standing at `ms`: the timers that fired, in
order. -/
def turns : ℕ → Timers → UInt32 → UInt32 → Option (Timers × List (Addr × Option Notice))
  | 0, _, _, _ => none
  | f + 1, w, curTick, ms =>
    (w.turn curTick ms).bind fun
      | (w, none) => some (w, [])
      | (w, some p) => (turns f w curTick ms).map fun (w, ps) => (w, p :: ps)

/-- `vsftimer_init_handler`, with the clock standing at `ms`. -/
def initHandler (f : ℕ) (w : Timers) (ms : UInt32) (evt : Evt) :
    Option (Timers × List (Addr × Option Notice)) :=
  let curTick := ms
  if evt = Evt.timer then turns f w curTick ms else some (w, [])

/-! ### What they make of the list -/

variable {w : Timers} {xs : List Addr} {t : Addr}

/-- **`vsftimer_dequeue` takes a timer out of the list.** -/
theorem dequeue_spec (h : Chain w.timerlist.next w.timerlist.head xs) (t : Addr) :
    ∃ q, w.dequeue t = some { w with timerlist := q } ∧ Chain q.next q.head (xs.erase t) ∧
      q.addr = w.timerlist.addr := by
  obtain ⟨q, h1, h2, h3, -⟩ := Queue.remove_spec h t
  refine ⟨q, ?_, h2, h3⟩
  unfold dequeue
  rw [h1, map_some]

/-- **`vsftimer_enqueue` puts a timer in order of its new deadline.** -/
theorem enqueue_spec (h : Chain w.timerlist.next w.timerlist.head xs) (ms : UInt32) (t : Addr) :
    ∃ q, w.enqueue ms t = some { w with timerlist := q } ∧
      Chain q.next q.head ((xs.erase t).orderedInsert q.AddrLe t) ∧
      q.addr = Function.update w.timerlist.addr t ((w.timer t).interval + ms) := by
  let v : Timers := w.setAddr t ((w.timer t).interval + ms)
  have hv : Chain v.timerlist.next v.timerlist.head xs := h
  obtain ⟨p, h1, h2, h3⟩ := dequeue_spec hv t
  have hnot : t ∉ xs.erase t := fun hm => (h.nodup.mem_erase_iff.mp hm).1 rfl
  obtain ⟨q, h4, h5, h6, -⟩ := Queue.enqueue_spec h2 hnot
  refine ⟨q, ?_, ?_, h6.trans h3⟩
  · unfold enqueue
    rw [h1, bind_some, h4, map_some]
    rfl
  · have hle : q.AddrLe = p.AddrLe := by
      unfold Queue.AddrLe
      rw [h6]
    simp only [hle]
    exact h5

/-- Nothing but the deadline of `t` changed, so the list is in order again. -/
theorem sorted_insert {q q' : Queue} {a : UInt32} (hs : xs.Pairwise q.AddrLe)
    (ht : t ∉ xs) (ha : q'.addr = Function.update q.addr t a) :
    (xs.orderedInsert q'.AddrLe t).Pairwise q'.AddrLe := by
  have : IsTrans Addr q'.AddrLe := ⟨fun _ _ _ => UInt32.le_trans⟩
  have : Std.Total q'.AddrLe := ⟨fun _ _ => UInt32.le_total _ _⟩
  apply List.Pairwise.orderedInsert
  apply hs.imp_of_mem
  intro x y hx hy hle
  have hxt : x ≠ t := fun he => ht (he ▸ hx)
  have hyt : y ≠ t := fun he => ht (he ▸ hy)
  show q'.addr x ≤ q'.addr y
  rw [ha, update_of_ne hxt, update_of_ne hyt]
  exact hle

/-- **`vsftimer_free` takes a timer out of the list and releases it.** -/
theorem free_spec (h : Chain w.timerlist.next w.timerlist.head xs) (t : Addr) :
    ∃ q, w.free t = some { w with timerlist := q, freed := w.freed ++ [t] } ∧
      Chain q.next q.head (xs.erase t) ∧ q.addr = w.timerlist.addr := by
  obtain ⟨q, h1, h2, h3⟩ := dequeue_spec h t
  refine ⟨q, ?_, h2, h3⟩
  unfold free
  rw [h1, map_some]

/-- The loop has passed `as` and is at the first timer of `bs`. -/
theorem cleanLoop_spec (sm : Option Addr) : ∀ (f : ℕ) (w : Timers) (as bs : List Addr),
    Chain w.timerlist.next w.timerlist.head (as ++ bs) → bs.length ≤ f →
    ∃ q, cleanLoop sm f w bs.head? = some { w with
        timerlist := q
        freed := w.freed ++ bs.filter fun t => (w.timer t).forSm sm } ∧
      Chain q.next q.head (as ++ bs.filter fun t => !(w.timer t).forSm sm) ∧
      q.addr = w.timerlist.addr := by
  intro f w as bs
  induction bs generalizing f w as with
  | nil =>
    intro h _
    refine ⟨w.timerlist, ?_, by simpa using h, rfl⟩
    rw [head?_nil, cleanLoop, filter_nil, append_nil]
  | cons t bs ih =>
    intro h hf
    obtain ⟨f, rfl⟩ : ∃ g, f = g + 1 := ⟨f - 1, by simp only [length_cons] at hf; omega⟩
    have hlen : bs.length ≤ f := by simpa using hf
    obtain ⟨r, -, -, hnext⟩ := chain_append.mp h
    have hhead : w.timerlist.next t = bs.head? := Chain.head? hnext
    rw [head?_cons, cleanLoop, hhead]
    by_cases hc : (w.timer t).forSm sm = true
    · -- the next timer was read before the release, and stays in the list
      obtain ⟨p, h1, h2, h3⟩ := free_spec h t
      have hnot : t ∉ as := fun hm =>
        (nodup_append.mp h.nodup).2.2 t hm t mem_cons_self rfl
      rw [erase_append_right _ hnot, erase_cons_head] at h2
      obtain ⟨q, h4, h5, h6⟩ := ih f { w with timerlist := p, freed := w.freed ++ [t] } as h2 hlen
      refine ⟨q, ?_, ?_, h6.trans h3⟩
      · rw [if_pos hc, h1, bind_some, h4, filter_cons]
        simp [hc]
      · rw [filter_cons_of_neg (by simpa using hc)]
        exact h5
    · have hstep : as ++ t :: bs = (as ++ [t]) ++ bs := by simp
      obtain ⟨q, h4, h5, h6⟩ := ih f w (as ++ [t]) (hstep ▸ h) hlen
      refine ⟨q, ?_, ?_, h6⟩
      · rw [if_neg hc, h4, filter_cons, if_neg hc]
      · rw [filter_cons_of_pos (by simpa using hc)]
        simpa using h5

/-- **`vsftimer_clean_sm` releases the listed timers of `sm`**, and no others. -/
theorem cleanSm_spec (h : Chain w.timerlist.next w.timerlist.head xs) (sm : Option Addr) :
    ∃ q, w.cleanSm sm = some { w with
        timerlist := q
        freed := w.freed ++ xs.filter fun t => (w.timer t).forSm sm } ∧
      Chain q.next q.head (xs.filter fun t => !(w.timer t).forSm sm) ∧
      q.addr = w.timerlist.addr := by
  have hlen : xs.length ≤ walkFuel := h.length_le
  obtain ⟨q, h1, h2⟩ := cleanLoop_spec sm walkFuel w [] xs h hlen
  refine ⟨q, ?_, h2⟩
  unfold cleanSm
  rw [h.head?, h1]

/-! ### A turn of the handler -/

theorem turn_stop (h : Chain w.timerlist.next w.timerlist.head xs)
    {curTick : UInt32} (ms : UInt32) (hx : ∀ t ∈ xs.head?, curTick < w.timerlist.addr t) :
    w.turn curTick ms = some (w, none) := by
  unfold turn
  rw [h.head?]
  cases xs with
  | nil => rfl
  | cons t xs =>
    have hlt : curTick < w.timerlist.addr t := hx t rfl
    simp only [head?_cons]
    rw [if_neg (UInt32.not_le.mpr hlt)]

/-- **A due timer fires**: it stays with a new deadline, or is released with its last shot. -/
theorem turn_fire (h : Chain w.timerlist.next w.timerlist.head (t :: xs)) {curTick : UInt32} (ms : UInt32)
    (hx : w.timerlist.addr t ≤ curTick) :
    ∃ q, if (w.timer t).countDown.triggerCnt ≠ 0 then
        w.turn curTick ms = some ({ w.set t (w.timer t).countDown with timerlist := q },
          some (t, (w.timer t).notice)) ∧
        Chain q.next q.head (xs.orderedInsert q.AddrLe t) ∧
        q.addr = Function.update w.timerlist.addr t ((w.timer t).interval + ms)
      else
        w.turn curTick ms = some ({ w.set t (w.timer t).countDown with
          timerlist := q, freed := w.freed ++ [t] }, some (t, (w.timer t).notice)) ∧
        Chain q.next q.head xs ∧ q.addr = w.timerlist.addr := by
  let v : Timers := w.set t (w.timer t).countDown
  have hv : Chain v.timerlist.next v.timerlist.head (t :: xs) := h
  have htimer : v.timer t = (w.timer t).countDown := update_self ..
  have hhead : w.timerlist.head = some t := h.1
  by_cases hc : (w.timer t).countDown.triggerCnt ≠ 0
  · obtain ⟨q, h1, h2, h3⟩ := enqueue_spec hv ms t
    rw [erase_cons_head] at h2
    rw [htimer, Timer.countDown_interval] at h3
    refine ⟨q, ?_⟩
    rw [if_pos hc]
    refine ⟨?_, h2, h3⟩
    unfold turn
    rw [hhead]
    dsimp only
    rw [if_pos hx, htimer, if_pos hc, h1, map_some]
    rw [htimer, Timer.countDown_notice]
  · obtain ⟨q, h1, h2, h3⟩ := free_spec hv t
    rw [erase_cons_head] at h2
    refine ⟨q, ?_⟩
    rw [if_neg hc]
    refine ⟨?_, h2, h3⟩
    unfold turn
    rw [hhead]
    dsimp only
    rw [if_pos hx, htimer, if_neg hc, h1, map_some]
    rw [htimer, Timer.countDown_notice]
    rfl

end Timers
end Vsf
