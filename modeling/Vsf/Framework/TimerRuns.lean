/-
# Runs of the timers

The timer module under any calls, with a clock that never goes back. Timers come from `alloc`, or
are part of an object of their owner, who calls `vsftimer_enqueue`. A call of the handler stays open
from turn to turn (`State.frames`). `Life` is what happened to one timer; while nobody else touches
it (`Life.alone`), its shots are counted, none is early, and the last is followed by one release.
-/
import Mathlib
import Vsf.Lib.Chain
import Vsf.Lib.System
import Vsf.Buffer.Queue
import Vsf.Framework.Evtq
import Vsf.Framework.Timer

namespace Vsf

open Linked List Function Option

namespace Timers

/-- What happened to a timer since it was set up: its `owner`, whether only the handler touched it
(`alone`), and its shots with whom they notified. -/
structure Life where
  owner : Option Addr
  notice : Option Notice
  count : ℤ
  interval : UInt32
  birth : ℕ
  pooled : Bool
  queued : Bool
  alone : Bool
  fired : List (ℕ × Option Notice)
  byHandler : ℕ
  byCaller : ℕ

namespace Life

/-- The timer is set up and put into the list. -/
def begin (owner : Option Addr) (notice : Option Notice) (count : ℤ) (interval : UInt32) (birth : ℕ)
    (pooled : Bool) : Life :=
  { owner, notice, count, interval, birth, pooled, queued := true, alone := true, fired := [],
    byHandler := 0, byCaller := 0 }

/-- The number of its releases. -/
def released (l : Life) : ℕ := l.byHandler + l.byCaller

/-- The time of its last shot, at first of its creation. -/
def last (l : Life) : ℕ := (l.fired.getLast?.map Prod.fst).getD l.birth

/-- Its owner takes it out of the list. -/
def touch (l : Life) : Life := if l.released = 0 then { l with queued := false, alone := false } else l

/-- Its owner puts it into the list. -/
def requeue (l : Life) : Life := { l with queued := true, alone := false }

/-- It fires. -/
def fire (l : Life) (now : ℕ) (n : Option Notice) : Life := { l with fired := l.fired ++ [(now, n)] }

/-- The handler released it `n` times. -/
def handlerFreed (n : ℕ) (l : Life) : Life :=
  if n = 0 then l else { l with queued := false, byHandler := l.byHandler + n }

/-- A caller released it `n` times. -/
def callerFreed (n : ℕ) (l : Life) : Life :=
  if n = 0 then l else { l with queued := false, alone := false, byCaller := l.byCaller + n }

/-- What `vsftimer_clean_sm(sm)` is for: release the listed timers of `sm`. -/
def clean (sm : Option Addr) (l : Life) : Life :=
  if l.queued = true ∧ sm ≠ none ∧ l.owner = sm then l.callerFreed 1 else l

end Life

/-- The timers, the clock, `cur_tick` of the calls not over (innermost first), and the lives of the timers,
with those that ended. -/
structure State where
  timers : Timers
  now : ℕ
  frames : List UInt32
  life : Addr → Option Life
  past : List Life

namespace State

/-- `vsfhal_tickclk_get_ms()`. -/
def ms (s : State) : UInt32 := UInt32.ofNat s.now

/-- A timer is set up at `t`. -/
def setup (s : State) (w : Timers) (t : Addr) (l : Life) : State :=
  { s with
    timers := w
    life := Function.update s.life t (some l)
    past := s.past ++ (s.life t).toList.map Life.touch }

/-- Something happens to the timer at `t`. -/
def modify (s : State) (w : Timers) (t : Addr) (f : Life → Life) : State :=
  { s with timers := w, life := Function.update s.life t ((s.life t).map f) }

/-- The releases a call made. -/
def settle (s : State) (f : ℕ → Life → Life) : State :=
  { s with
    timers := { s.timers with freed := [] }
    life := fun t => (s.life t).map (f (s.timers.freed.count t)) }

/-- There is a timer at `t`, not released. -/
def live (s : State) (t : Addr) : Prop := ∃ l, s.life t = some l ∧ l.released = 0

end State

/-- The calls; `mem` is what `alloc` returns, `own` is the owner writing and listing its timer, `enter` the
handler's call, `turn` the innermost call's next turn. -/
inductive Op where
  | create (mem sm : Option Addr) (interval : UInt32) (cnt : Int16) (evt : Evt)
  | createCb (mem : Option Addr) (interval : UInt32) (cnt : Int16) (cb : Option Addr) (param : UInt32)
  | own (t : Addr) (m : Timer)
  | enqueue (t : Addr)
  | dequeue (t : Addr)
  | free (t : Addr)
  | cleanSm (sm : Option Addr)
  | enter
  | turn
  | tick (now : ℕ)

/-- One step, `none` for a walk that does not end. -/
def step (s : State) : Op → Option State
  | .create mem sm interval cnt evt => (s.timers.create s.ms mem sm interval cnt evt).map fun
    | (w, none) => { s with timers := w }
    | (w, some t) => s.setup w t
        (.begin sm (sm.map fun a => .post a evt) cnt.toInt interval s.now true)
  | .createCb mem interval cnt cb param => (s.timers.createCb s.ms mem interval cnt cb param).map fun
    | (w, none) => { s with timers := w }
    | (w, some t) => s.setup w t
        (.begin none (cb.map fun a => .call a param) cnt.toInt interval s.now true)
  | .own t m => ((s.timers.set t m).enqueue s.ms t).map fun w =>
      s.setup w t (.begin (if m.evt ≠ Evt.invalid then m.word else none) m.notice m.triggerCnt
        m.interval s.now false)
  | .enqueue t => (s.timers.enqueue s.ms t).map fun w => s.modify w t Life.requeue
  | .dequeue t => (s.timers.dequeue t).map fun w => s.modify w t Life.touch
  | .free t => (s.timers.free t).map fun w => { s with timers := w }.settle Life.callerFreed
  | .cleanSm sm => (s.timers.cleanSm sm).map fun w => { s with timers := w }.settle Life.callerFreed
  | .enter => some { s with frames := s.ms :: s.frames }
  | .turn =>
    match s.frames with
    | [] => none
    | c :: cs => (s.timers.turn c s.ms).map fun
      | (w, none) => { s with timers := w, frames := cs }
      | (w, some (t, n)) => (s.modify w t fun l => l.fire s.now n).settle Life.handlerFreed
  | .tick now => some { s with now }

section
variable (code : Addr → Prop)

/-- What is asked of the callers: no function (`code`) is a state machine, `alloc` returns unused memory,
released timers stay released, the clock does not go back or wrap, and no deadline passes 2^32. -/
def legal (s : State) : Op → Prop
  | .create mem _ interval _ evt =>
    (∀ t, mem = some t → ¬ s.live t) ∧ evt ≠ Evt.invalid ∧ 1 ≤ interval ∧ s.now + interval.toNat < 2 ^ 32
  | .createCb mem interval _ cb _ =>
    (∀ t, mem = some t → ¬ s.live t) ∧ (∀ a, cb = some a → code a) ∧ 1 ≤ interval ∧
      s.now + interval.toNat < 2 ^ 32
  | .own t m =>
    (∀ l, s.life t = some l → l.released = 0 → l.pooled = false) ∧
      (m.evt = Evt.invalid → ∀ a, m.word = some a → code a) ∧ 1 ≤ m.interval ∧
      s.now + m.interval.toNat < 2 ^ 32
  | .enqueue t => s.live t ∧ s.now + (s.timers.timer t).interval.toNat < 2 ^ 32
  | .dequeue _ => True
  | .free t => s.live t
  | .cleanSm sm => ∀ a, sm = some a → ¬ code a
  | .enter => True
  | .turn => s.frames ≠ [] ∧ ∀ c ∈ s.frames.head?, ∀ t ∈ s.timers.timerlist.head,
      s.timers.timerlist.addr t ≤ c → (s.timers.timer t).countDown.triggerCnt ≠ 0 →
      s.now + (s.timers.timer t).interval.toNat < 2 ^ 32
  | .tick now => s.now ≤ now ∧ now < 2 ^ 32

/-- From `vsftimer_init` on, on any memory and at any time. -/
def system : System State Op where
  start s := ∃ q timer, s.now < 2 ^ 32 ∧ s = ⟨⟨Queue.init q, timer, []⟩, s.now, [], fun _ => none, []⟩
  step s op s' := legal code s op ∧ step s op = some s'

end

/-! ### What holds of them -/

/-- What a timer does: every shot notifies whom it should; left alone it is never early, and with `count = n
> 0` it has at most `n`, the last with its release; with a negative count it is not released. -/
structure Life.Correct (l : Life) : Prop where
  once : l.released ≤ 1
  told : ∀ p ∈ l.fired, p.2 = l.notice
  punctual : l.alone = true → ∀ j p, l.fired[j]? = some p → l.birth + (j + 1) * l.interval.toNat ≤ p.1
  shots : 0 < l.count → l.alone = true → l.byCaller = 0 ∧ (l.fired.length : ℤ) ≤ l.count ∧
    l.byHandler = if (l.fired.length : ℤ) = l.count then 1 else 0
  endless : l.count < 0 → l.byHandler = 0

/-- The chain from `head` holds each listed timer once, in order, and every timer did what it should. -/
structure Correct (s : State) : Prop where
  list : ∃ xs, Chain s.timers.timerlist.next s.timers.timerlist.head xs ∧ xs.Nodup ∧
    xs.Pairwise s.timers.timerlist.AddrLe ∧
    ∀ t, t ∈ xs ↔ ∃ l, s.life t = some l ∧ l.queued = true ∧ l.released = 0
  lives : ∀ t l, s.life t = some l → l.Correct
  past : ∀ l ∈ s.past, l.Correct

/-- The timers in the list that are due at `c`. -/
def State.due (s : State) (c : UInt32) : Set Addr :=
  { t | ∃ l, s.life t = some l ∧ l.queued = true ∧ s.timers.timerlist.addr t ≤ c }

/-- None that was left alone has its next shot before or at `c`. -/
def Drained (c : UInt32) (s : State) : Prop :=
  s.due c = ∅ ∧ ∀ t l, s.life t = some l → l.released = 0 → l.alone = true →
    c.toNat < l.last + l.interval.toNat

/-! ### One timer -/

/-- A live timer's memory: what its owner wrote, shots counted off; left alone it is listed, an interval
behind its last shot. -/
structure Running (code : Addr → Prop) (m : Timer) (a : UInt32) (l : Life) : Prop where
  pos : 1 ≤ l.interval.toNat
  interval : m.interval = l.interval
  notice : m.notice = l.notice
  owner : ∀ sm, ¬ code sm → (m.word = some sm ↔ l.owner = some sm)
  count : m.triggerCnt = if 0 < l.count then l.count - l.fired.length else l.count
  room : 0 < l.count → (l.fired.length : ℤ) < l.count
  next : l.alone = true → l.queued = true ∧ a.toNat = l.last + l.interval.toNat ∧
    l.birth + l.fired.length * l.interval.toNat ≤ l.last

/-- The invariant of one timer with the fields `m` and the deadline `a`. -/
structure Good (code : Addr → Prop) (m : Timer) (a : UInt32) (l : Life) : Prop where
  correct : l.Correct
  queued : l.queued = true → l.released = 0
  running : l.released = 0 → Running code m a l

section
variable {code : Addr → Prop} {m m' : Timer} {a a' : UInt32} {l : Life}

theorem Life.last_fire (l : Life) (now : ℕ) (n : Option Notice) : (l.fire now n).last = now := by
  simp [Life.last, Life.fire]

/-- A shot is counted off, if shots are counted. -/
theorem Running.countDown (h : Running code m a l) :
    m.countDown.triggerCnt = if 0 < l.count then l.count - ((l.fired.length + 1 : ℕ) : ℤ) else l.count := by
  have hroom := h.room
  rw [Timer.countDown_triggerCnt, h.count]
  by_cases hpos : 0 < l.count
  · have := hroom hpos
    rw [if_pos hpos, if_pos hpos, if_pos (by omega)]
    push_cast
    ring
  · rw [if_neg hpos, if_neg hpos, if_neg hpos]

theorem Good.begin {owner : Option Addr} {count : ℤ} {now : ℕ} {pooled : Bool} (h1 : 1 ≤ m.interval)
    (hc : m.triggerCnt = count) (ho : ∀ sm, ¬ code sm → (m.word = some sm ↔ owner = some sm))
    (ha : a.toNat = now + m.interval.toNat) :
    Good code m a (.begin owner m.notice count m.interval now pooled) := by
  refine ⟨⟨Nat.zero_le _, ?_, ?_, ?_, fun _ => rfl⟩, fun _ => rfl, fun _ => ⟨?_, rfl, rfl, ho, ?_, id, ?_⟩⟩
  · intro p hp
    cases hp
  · intro _ j p hp
    simp [Life.begin] at hp
  · intro hpos _
    have hne : (0 : ℤ) ≠ count := Int.ne_of_lt hpos
    exact ⟨rfl, Int.le_of_lt hpos, (if_neg hne).symm⟩
  · exact UInt32.le_iff_toNat_le.mp h1
  · simp [Life.begin, hc]
  · intro _
    refine ⟨rfl, ha, ?_⟩
    simp [Life.begin, Life.last]

/-- What is asked of a timer that is not left alone or released anymore. -/
theorem Life.Correct.touched (h : l.Correct) {n k : ℕ} {q : Bool} (hn : l.byHandler = n) (hk : n + k ≤ 1) :
    Life.Correct { l with queued := q, alone := false, byCaller := k } := by
  refine ⟨?_, h.told, fun hf => (by cases hf), fun _ hf => (by cases hf), h.endless⟩
  show l.byHandler + k ≤ 1
  rw [hn]
  exact hk

theorem Good.touch (h : Good code m a l) : Good code m a l.touch ∧ l.touch.queued = false := by
  unfold Life.touch
  by_cases hr : l.released = 0
  · rw [if_pos hr]
    have hrun := h.running hr
    refine ⟨⟨h.correct.touched rfl h.correct.once, fun _ => hr, fun _ => ?_⟩, rfl⟩
    exact ⟨hrun.pos, hrun.interval, hrun.notice, hrun.owner, hrun.count, hrun.room, fun hf => (by cases hf)⟩
  · rw [if_neg hr]
    refine ⟨h, ?_⟩
    by_contra hq
    exact hr (h.queued (by simpa using hq))

theorem Good.requeue (h : Good code m a l) (hr : l.released = 0) : Good code m a' l.requeue := by
  have hrun := h.running hr
  refine ⟨h.correct.touched rfl h.correct.once, fun _ => hr, fun _ => ?_⟩
  exact ⟨hrun.pos, hrun.interval, hrun.notice, hrun.owner, hrun.count, hrun.room, fun hf => (by cases hf)⟩

theorem Good.callerFreed (h : Good code m a l) (hr : l.released = 0) :
    Good code m' a' (l.callerFreed 1) ∧ (l.callerFreed 1).queued = false := by
  have h0 : l.byHandler = 0 ∧ l.byCaller = 0 := Nat.add_eq_zero_iff.mp hr
  refine ⟨⟨h.correct.touched h0.1 (by omega), fun hf => (by cases hf), fun hc => ?_⟩, rfl⟩
  have hc' : l.byHandler + (l.byCaller + 1) = 0 := hc
  omega

/-- The shots of a timer that fires at or after its deadline. -/
theorem Good.punctual_fire (h : Good code m a l) (hr : l.released = 0) {now : ℕ} (hnow : a.toNat ≤ now)
    (n : Option Notice) (hal : l.alone = true) :
    l.birth + (l.fired.length + 1) * l.interval.toNat ≤ now ∧
    ∀ j p, (l.fire now n).fired[j]? = some p → l.birth + (j + 1) * l.interval.toNat ≤ p.1 := by
  obtain ⟨-, ha, hle⟩ := (h.running hr).next hal
  have hshot : l.birth + (l.fired.length + 1) * l.interval.toNat ≤ now := by
    calc l.birth + (l.fired.length + 1) * l.interval.toNat
        = l.birth + l.fired.length * l.interval.toNat + l.interval.toNat := by ring
      _ ≤ l.last + l.interval.toNat := Nat.add_le_add_right hle _
      _ = a.toNat := ha.symm
      _ ≤ now := hnow
  refine ⟨hshot, fun j p hp => ?_⟩
  simp only [Life.fire] at hp
  rcases lt_trichotomy j l.fired.length with hj | rfl | hj
  · rw [getElem?_append_left hj] at hp
    exact h.correct.punctual hal j p hp
  · rw [getElem?_concat_length] at hp
    obtain rfl := some.inj hp
    exact hshot
  · rw [getElem?_eq_none (by rw [length_append, length_singleton]; omega)] at hp
    cases hp

theorem Good.told_fire (h : Good code m a l) (hr : l.released = 0) (now : ℕ) :
    ∀ p ∈ (l.fire now m.notice).fired, p.2 = l.notice := by
  intro p hp
  rcases mem_append.mp hp with hp | hp
  · exact h.correct.told p hp
  · rw [mem_singleton.mp hp]
    exact (h.running hr).notice

theorem Life.length_fire (l : Life) (now : ℕ) (n : Option Notice) :
    (l.fire now n).fired.length = l.fired.length + 1 := by
  simp [Life.fire]

theorem Good.fire (h : Good code m a l) (hq : l.queued = true) (hs : m.countDown.triggerCnt ≠ 0) {now : ℕ}
    (hnow : a.toNat ≤ now) (ha' : a'.toNat = now + m.interval.toNat) :
    Good code m.countDown a' (l.fire now m.notice) := by
  have hr := h.queued hq
  have hrun := h.running hr
  have hlen := l.length_fire now m.notice
  have h0 : l.byHandler = 0 ∧ l.byCaller = 0 := Nat.add_eq_zero_iff.mp hr
  have hroom : 0 < l.count → ((l.fired.length + 1 : ℕ) : ℤ) < l.count := by
    intro hpos
    have := hrun.room hpos
    rw [hrun.countDown, if_pos hpos] at hs
    omega
  refine ⟨⟨h.correct.once, h.told_fire hr now, fun hal => (h.punctual_fire hr hnow _ hal).2, ?_,
    h.correct.endless⟩, fun _ => hr, fun _ => ⟨hrun.pos, ?_, ?_, ?_, ?_, ?_, ?_⟩⟩
  · intro hpos _
    have hlt := hroom hpos
    rw [hlen]
    exact ⟨h0.2, Int.le_of_lt hlt, h0.1.trans (if_neg (Int.ne_of_lt hlt)).symm⟩
  · rw [Timer.countDown_interval]
    exact hrun.interval
  · rw [Timer.countDown_notice]
    exact hrun.notice
  · rw [Timer.countDown_word]
    exact hrun.owner
  · rw [hlen]
    exact hrun.countDown
  · intro hpos
    rw [hlen]
    exact hroom hpos
  · intro hal
    have hshot := (h.punctual_fire hr hnow m.notice hal).1
    rw [Life.last_fire, hlen]
    exact ⟨hq, hrun.interval ▸ ha', hshot⟩

theorem Good.fire_last (h : Good code m a l) (hq : l.queued = true) (hs : m.countDown.triggerCnt = 0) {now : ℕ}
    (hnow : a.toNat ≤ now) :
    Good code m' a' ((l.fire now m.notice).handlerFreed 1) ∧
      ((l.fire now m.notice).handlerFreed 1).queued = false := by
  have hr := h.queued hq
  have hrun := h.running hr
  have hlen := l.length_fire now m.notice
  have h0 : l.byHandler = 0 ∧ l.byCaller = 0 := Nat.add_eq_zero_iff.mp hr
  rw [hrun.countDown] at hs
  refine ⟨⟨⟨?_, h.told_fire hr now, fun hal => (h.punctual_fire hr hnow _ hal).2, ?_, ?_⟩,
    fun hf => (by cases hf), fun hc => ?_⟩, rfl⟩
  · show l.byHandler + 1 + l.byCaller ≤ 1
    omega
  · intro hpos _
    have hpos' : 0 < l.count := hpos
    rw [if_pos hpos'] at hs
    have hlast : ((l.fired.length + 1 : ℕ) : ℤ) = l.count := by omega
    refine ⟨h0.2, ?_, ?_⟩
    · show ((l.fire now m.notice).fired.length : ℤ) ≤ l.count
      rw [hlen, hlast]
    · show l.byHandler + 1 = if ((l.fire now m.notice).fired.length : ℤ) = l.count then 1 else 0
      rw [hlen, if_pos hlast, h0.1]
  · intro hneg
    have hneg' : l.count < 0 := hneg
    rw [if_neg (by omega)] at hs
    omega
  · have hc' : l.byHandler + 1 + l.byCaller = 0 := hc
    omega

end

/-! ### All timers -/

/-- The invariant: the chain is `xs`, in order, and holds the queued timers. -/
structure Inv (code : Addr → Prop) (s : State) (xs : List Addr) : Prop where
  chain : Chain s.timers.timerlist.next s.timers.timerlist.head xs
  sorted : xs.Pairwise s.timers.timerlist.AddrLe
  mem : ∀ t, t ∈ xs ↔ ∃ l, s.life t = some l ∧ l.queued = true
  freed : s.timers.freed = []
  now : s.now < 2 ^ 32
  frames : ∀ c ∈ s.frames, c.toNat ≤ s.now
  lives : ∀ t l, s.life t = some l → Good code (s.timers.timer t) (s.timers.timerlist.addr t) l
  past : ∀ l ∈ s.past, l.Correct

section
variable {code : Addr → Prop} {s s' : State} {xs : List Addr}

theorem Inv.correct (h : Inv code s xs) : Correct s := by
  refine ⟨⟨xs, h.chain, h.chain.nodup, h.sorted, fun t => ?_⟩, fun t l hl => (h.lives t l hl).correct, h.past⟩
  rw [h.mem t]
  constructor
  · intro ⟨l, hl, hq⟩
    exact ⟨l, hl, hq, (h.lives t l hl).queued hq⟩
  · intro ⟨l, hl, hq, _⟩
    exact ⟨l, hl, hq⟩

theorem Inv.ms_toNat (h : Inv code s xs) : s.ms.toNat = s.now := UInt32.toNat_ofNat_of_lt' h.now

theorem Inv.deadline (h : Inv code s xs) {i : UInt32} (hfit : s.now + i.toNat < 2 ^ 32) :
    (i + s.ms).toNat = s.now + i.toNat := by
  rw [UInt32.toNat_add, h.ms_toNat, add_comm, Nat.mod_eq_of_lt hfit]

theorem due_subset {t : Addr} {c : UInt32} (hl : ∀ u, u ≠ t → s'.life u = s.life u)
    (ha : ∀ u, u ≠ t → s'.timers.timerlist.addr u = s.timers.timerlist.addr u) (ht : t ∉ s'.due c) :
    s'.due c ⊆ s.due c \ {t} := by
  intro u hu
  have hut : u ≠ t := fun he => ht (he ▸ hu)
  obtain ⟨l, hlu, hq, hle⟩ := hu
  exact ⟨⟨l, hl u hut ▸ hlu, hq, ha u hut ▸ hle⟩, hut⟩

/-- **A timer goes into the list** with a deadline after all clocks read. -/
theorem Inv.insert (h : Inv code s xs) {t : Addr} {m : Timer} {l : Life} {q : Queue} {past : List Life}
    (hch : Chain q.next q.head ((xs.erase t).orderedInsert q.AddrLe t))
    (ha : q.addr = Function.update s.timers.timerlist.addr t (m.interval + s.ms))
    (hlate : s.now < (m.interval + s.ms).toNat) (hg : Good code m (m.interval + s.ms) l)
    (hq : l.queued = true) (hp : ∀ l ∈ past, l.Correct)
    (hs : s' = { s with
      timers := { s.timers.set t m with timerlist := q }
      life := Function.update s.life t (some l)
      past }) :
    (∃ ys, Inv code s' ys) ∧ ∀ c ∈ s.frames, s'.due c ⊆ s.due c \ {t} := by
  subst hs
  have hnot : t ∉ xs.erase t := fun hm => (h.chain.nodup.mem_erase_iff.mp hm).1 rfl
  have hself : Function.update s.life t (some l) t = some l := update_self ..
  refine ⟨⟨_, ⟨hch, ?_, fun u => ?_, h.freed, h.now, h.frames, fun u k hu => ?_, hp⟩⟩, fun c hc => ?_⟩
  · exact sorted_insert (h.sorted.sublist erase_sublist) hnot ha
  · rw [mem_orderedInsert, h.chain.nodup.mem_erase_iff]
    by_cases hut : u = t
    · subst hut
      simp only [ne_eq, not_true_eq_false, false_and, or_false, true_iff]
      exact ⟨l, hself, hq⟩
    · simp only [hut, ne_eq, not_false_eq_true, true_and, false_or]
      rw [update_of_ne hut]
      exact h.mem u
  · by_cases hut : u = t
    · subst hut
      obtain rfl := some.inj (hself.symm.trans hu)
      simp only [set_timer, ha, update_self]
      exact hg
    · simp only [set_timer, ha, update_of_ne hut] at hu ⊢
      exact h.lives u k hu
  · apply due_subset
    · intro u hut
      exact update_of_ne hut _ _
    · intro u hut
      show q.addr u = _
      rw [ha, update_of_ne hut]
    · intro ⟨k, _, _, hle⟩
      have hle' : q.addr t ≤ c := hle
      rw [ha, update_self, UInt32.le_iff_toNat_le] at hle'
      have := h.frames c hc
      omega

/-- **A timer leaves the list.** -/
theorem Inv.drop (h : Inv code s xs) {t : Addr} {m : Timer} {o : Option Life} {q : Queue}
    (hch : Chain q.next q.head (xs.erase t)) (ha : q.addr = s.timers.timerlist.addr)
    (ho : ∀ l, o = some l → Good code m (s.timers.timerlist.addr t) l ∧ l.queued = false)
    (hs : s' = { s with
      timers := ⟨q, Function.update s.timers.timer t m, []⟩
      life := Function.update s.life t o }) :
    (∃ ys, Inv code s' ys) ∧ ∀ c, s'.due c ⊆ s.due c \ {t} := by
  subst hs
  have hself : Function.update s.life t o t = o := update_self ..
  have hle : q.AddrLe = s.timers.timerlist.AddrLe := by
    unfold Queue.AddrLe
    rw [ha]
  refine ⟨⟨_, ⟨hch, ?_, fun u => ?_, rfl, h.now, h.frames, fun u k hu => ?_, h.past⟩⟩, fun c => ?_⟩
  · simp only [hle]
    exact h.sorted.sublist erase_sublist
  · rw [h.chain.nodup.mem_erase_iff]
    by_cases hut : u = t
    · subst hut
      simp only [ne_eq, not_true_eq_false, false_and, false_iff]
      intro ⟨l, hl, hq⟩
      have hf := (ho l (hself.symm.trans hl)).2
      rw [hq] at hf
      cases hf
    · simp only [hut, ne_eq, not_false_eq_true, true_and]
      rw [update_of_ne hut]
      exact h.mem u
  · by_cases hut : u = t
    · subst hut
      simp only [ha, update_self]
      exact (ho k (hself.symm.trans hu)).1
    · simp only [ha, update_of_ne hut] at hu ⊢
      exact h.lives u k hu
  · apply due_subset
    · intro u hut
      exact update_of_ne hut _ _
    · intro u _
      show q.addr u = _
      rw [ha]
    · intro ⟨k, hk, hq, _⟩
      have hf := (ho k (hself.symm.trans hk)).2
      rw [hq] at hf
      cases hf

/-! ### The calls

Each returns and keeps the invariant, and makes no timer due for a call of the
handler that is not over. -/

/-- What every step keeps. -/
def Kept (code : Addr → Prop) (s s' : State) : Prop :=
  (∃ ys, Inv code s' ys) ∧ ∀ c ∈ s.frames, s'.due c ⊆ s.due c

theorem Inv.setup (h : Inv code s xs) (t : Addr) (m : Timer) (owner : Option Addr) (pooled : Bool)
    (h1 : 1 ≤ m.interval) (hfit : s.now + m.interval.toNat < 2 ^ 32)
    (ho : ∀ sm, ¬ code sm → (m.word = some sm ↔ owner = some sm)) :
    ∃ w, (s.timers.set t m).enqueue s.ms t = some w ∧
      Kept code s (s.setup w t (.begin owner m.notice m.triggerCnt m.interval s.now pooled)) := by
  have hch : Chain (s.timers.set t m).timerlist.next (s.timers.set t m).timerlist.head xs := h.chain
  have hd := h.deadline hfit
  obtain ⟨q, hw, hch, ha⟩ := enqueue_spec hch s.ms t
  rw [set_timer, update_self] at ha
  have hpos := UInt32.le_iff_toNat_le.mp h1
  rw [UInt32.toNat_one] at hpos
  have hpast : ∀ l ∈ s.past ++ (s.life t).toList.map Life.touch, l.Correct := by
    intro l hl
    rcases mem_append.mp hl with hl | hl
    · exact h.past l hl
    · obtain ⟨k, hk, rfl⟩ := List.mem_map.mp hl
      exact (h.lives t k (mem_toList.mp hk)).touch.1.correct
  obtain ⟨hinv, hdue⟩ := h.insert hch ha (by omega) (Good.begin h1 rfl ho hd) rfl hpast rfl
  exact ⟨_, hw, hinv, fun c hc => (hdue c hc).trans Set.sdiff_subset⟩

theorem Inv.create (h : Inv code s xs) {mem sm : Option Addr} {interval : UInt32} {cnt : Int16} {evt : Evt}
    (hl : legal code s (.create mem sm interval cnt evt)) :
    ∃ s', step s (.create mem sm interval cnt evt) = some s' ∧ Kept code s s' := by
  obtain ⟨-, hevt, h1, hfit⟩ := hl
  cases mem with
  | none => exact ⟨s, rfl, ⟨xs, h⟩, fun c _ => Set.Subset.rfl⟩
  | some t =>
    let m : Timer := { s.timers.timer t with word := sm, evt, interval, triggerCnt := cnt.toInt }
    have hn : m.notice = sm.map fun a => .post a evt := if_pos hevt
    obtain ⟨w, hw, hk⟩ := h.setup t m sm true h1 hfit fun a _ => Iff.rfl
    rw [hn] at hk
    refine ⟨_, ?_, hk⟩
    simp only [step, Timers.create]
    rw [hw, map_some, map_some]

theorem Inv.createCb (h : Inv code s xs) {mem : Option Addr} {interval : UInt32} {cnt : Int16}
    {cb : Option Addr} {param : UInt32} (hl : legal code s (.createCb mem interval cnt cb param)) :
    ∃ s', step s (.createCb mem interval cnt cb param) = some s' ∧ Kept code s s' := by
  obtain ⟨-, hcb, h1, hfit⟩ := hl
  cases mem with
  | none => exact ⟨s, rfl, ⟨xs, h⟩, fun c _ => Set.Subset.rfl⟩
  | some t =>
    let m : Timer := { word := cb, param, evt := Evt.invalid, interval, triggerCnt := cnt.toInt }
    have hn : m.notice = cb.map fun a => .call a param := if_neg (not_not.mpr rfl)
    have ho : ∀ sm, ¬ code sm → (m.word = some sm ↔ none = some sm) := fun sm hsm =>
      ⟨fun he => absurd (hcb sm he) hsm, fun he => (by cases he)⟩
    obtain ⟨w, hw, hk⟩ := h.setup t m none true h1 hfit ho
    rw [hn] at hk
    refine ⟨_, ?_, hk⟩
    simp only [step, Timers.createCb]
    rw [hw, map_some, map_some]

theorem Inv.own (h : Inv code s xs) {t : Addr} {m : Timer} (hl : legal code s (.own t m)) :
    ∃ s', step s (.own t m) = some s' ∧ Kept code s s' := by
  obtain ⟨-, hcb, h1, hfit⟩ := hl
  have ho : ∀ sm, ¬ code sm →
      (m.word = some sm ↔ (if m.evt ≠ Evt.invalid then m.word else none) = some sm) := by
    intro sm hsm
    by_cases he : m.evt = Evt.invalid
    · rw [if_neg (not_not.mpr he)]
      exact ⟨fun hw => absurd (hcb he sm hw) hsm, fun hw => (by cases hw)⟩
    · rw [if_pos he]
  obtain ⟨w, hw, hk⟩ := h.setup t m _ false h1 hfit ho
  refine ⟨_, ?_, hk⟩
  simp only [step]
  rw [hw, map_some]

theorem set_self (w : Timers) (t : Addr) : w.set t (w.timer t) = w := by
  unfold Timers.set
  rw [update_eq_self]

theorem Inv.enqueue (h : Inv code s xs) {t : Addr} (hl : legal code s (.enqueue t)) :
    ∃ s', step s (.enqueue t) = some s' ∧ Kept code s s' := by
  obtain ⟨⟨l, hlt, hr⟩, hfit⟩ := hl
  have hg := h.lives t l hlt
  have hd := h.deadline hfit
  have hpos := (hg.running hr).pos
  rw [← (hg.running hr).interval] at hpos
  obtain ⟨q, hw, hch, ha⟩ := enqueue_spec h.chain s.ms t
  refine ⟨s.modify { s.timers with timerlist := q } t Life.requeue, ?_, ?_⟩
  · simp only [step]
    rw [hw, map_some]
  · obtain ⟨hinv, hdue⟩ := h.insert hch ha (by omega) (hg.requeue hr) rfl h.past rfl
    have hs : s.modify { s.timers with timerlist := q } t Life.requeue = { s with
        timers := { s.timers.set t (s.timers.timer t) with timerlist := q }
        life := Function.update s.life t (some l.requeue) } := by
      unfold State.modify
      rw [set_self, hlt, map_some]
    rw [← hs] at hinv hdue
    exact ⟨hinv, fun c hc => (hdue c hc).trans Set.sdiff_subset⟩

theorem Inv.dequeue (h : Inv code s xs) (t : Addr) :
    ∃ s', step s (.dequeue t) = some s' ∧ Kept code s s' := by
  obtain ⟨q, hw, hch, ha⟩ := dequeue_spec h.chain t
  refine ⟨s.modify { s.timers with timerlist := q } t Life.touch, ?_, ?_⟩
  · simp only [step]
    rw [hw, map_some]
  · have ho : ∀ l, (s.life t).map Life.touch = some l →
        Good code (s.timers.timer t) (s.timers.timerlist.addr t) l ∧ l.queued = false := by
      intro l hl
      obtain ⟨k, hk, rfl⟩ := map_eq_some_iff.mp hl
      exact (h.lives t k hk).touch
    have hs : s.modify { s.timers with timerlist := q } t Life.touch = { s with
        timers := ⟨q, Function.update s.timers.timer t (s.timers.timer t), []⟩
        life := Function.update s.life t ((s.life t).map Life.touch) } := by
      simp only [State.modify, update_eq_self, h.freed]
    obtain ⟨hinv, hdue⟩ := h.drop hch ha ho hs
    exact ⟨hinv, fun c _ => (hdue c).trans Set.sdiff_subset⟩

theorem settle_none {f : ℕ → Life → Life} (hf : ∀ l, f 0 l = l) (hs : s.timers.freed = []) : s.settle f = s := by
  have hid : f 0 = id := funext hf
  unfold State.settle
  rw [hs]
  simp only [count_nil, hid, Option.map_id, id]
  rw [← hs]

theorem settle_one (s : State) (t : Addr) (q : Queue) (timer : Addr → Timer) {f : ℕ → Life → Life}
    (hf : ∀ l, f 0 l = l) :
    { s with timers := ⟨q, timer, [t]⟩ }.settle f = { s with
      timers := ⟨q, timer, []⟩
      life := Function.update s.life t ((s.life t).map (f 1)) } := by
  unfold State.settle
  congr 1
  funext u
  by_cases hut : u = t
  · subst hut
    rw [update_self, count_singleton_self]
  · have hne : ¬ (t == u) = true := fun he => hut (LawfulBEq.eq_of_beq he).symm
    rw [update_of_ne hut, count_singleton, if_neg hne, show f 0 = id from funext hf,
      Option.map_id, id]

theorem Inv.free (h : Inv code s xs) {t : Addr} (hl : legal code s (.free t)) :
    ∃ s', step s (.free t) = some s' ∧ Kept code s s' := by
  obtain ⟨l, hlt, hr⟩ := hl
  obtain ⟨q, hw, hch, ha⟩ := free_spec h.chain t
  rw [h.freed, nil_append] at hw
  have hs : State.settle { s with timers := ⟨q, s.timers.timer, [t]⟩ } Life.callerFreed = _ :=
    settle_one s t q s.timers.timer fun _ => rfl
  refine ⟨State.settle { s with timers := ⟨q, s.timers.timer, [t]⟩ } Life.callerFreed, ?_, ?_⟩
  · simp only [step]
    rw [hw, map_some]
  · rw [hs]
    have ho : ∀ k, (s.life t).map (Life.callerFreed 1) = some k →
        Good code (s.timers.timer t) (s.timers.timerlist.addr t) k ∧ k.queued = false := by
      intro k hk
      rw [hlt, map_some] at hk
      obtain rfl := some.inj hk
      exact (h.lives t l hlt).callerFreed hr
    obtain ⟨hinv, hdue⟩ := h.drop hch ha ho rfl
    rw [update_eq_self] at hinv hdue
    exact ⟨hinv, fun c _ => (hdue c).trans Set.sdiff_subset⟩

theorem Inv.forSm (h : Inv code s xs) {sm : Option Addr} (hsm : ∀ a, sm = some a → ¬ code a) {t : Addr}
    {l : Life} (hl : s.life t = some l) (hq : l.queued = true) :
    (s.timers.timer t).forSm sm = true ↔ sm ≠ none ∧ l.owner = sm := by
  have hg := h.lives t l hl
  have hrun := hg.running (hg.queued hq)
  simp only [Timer.forSm, decide_eq_true_eq]
  cases sm with
  | none => simp
  | some a =>
    rw [hrun.owner a (hsm a rfl)]

theorem Inv.cleanSm (h : Inv code s xs) {sm : Option Addr} (hl : legal code s (.cleanSm sm)) :
    ∃ s', step s (.cleanSm sm) = some s' ∧ Kept code s s' ∧
      ∀ t, s'.life t = (s.life t).map (Life.clean sm) := by
  obtain ⟨q, hw, hch, ha⟩ := cleanSm_spec h.chain sm
  let gone := xs.filter fun t => (s.timers.timer t).forSm sm
  rw [h.freed, nil_append] at hw
  have hle : q.AddrLe = s.timers.timerlist.AddrLe := by
    unfold Queue.AddrLe
    rw [ha]
  have hpick : ∀ t l, s.life t = some l → (t ∈ gone ↔ l.queued = true ∧ sm ≠ none ∧ l.owner = sm) := by
    intro t l htl
    rw [mem_filter, h.mem t]
    constructor
    · intro ⟨⟨k, hk, hq⟩, hf⟩
      obtain rfl := some.inj (htl.symm.trans hk)
      exact ⟨hq, (h.forSm hl htl hq).mp hf⟩
    · intro ⟨hq, hf⟩
      exact ⟨⟨l, htl, hq⟩, (h.forSm hl htl hq).mpr hf⟩
  have hlife : ∀ t, (s.life t).map (Life.callerFreed (gone.count t)) = (s.life t).map (Life.clean sm) := by
    intro t
    cases htl : s.life t with
    | none => rfl
    | some l =>
      simp only [map_some, Option.some.injEq]
      have hiff := hpick t l htl
      unfold Life.clean
      by_cases hm : t ∈ gone
      · rw [if_pos (hiff.mp hm), count_eq_one_of_mem (h.chain.nodup.filter _) hm]
      · rw [if_neg (fun hc => hm (hiff.mpr hc)), count_eq_zero_of_not_mem hm]
        rfl
  refine ⟨State.settle { s with timers := ⟨q, s.timers.timer, gone⟩ } Life.callerFreed, ?_,
    ⟨⟨_, ⟨hch, ?_, fun t => ?_, rfl, h.now, h.frames, fun t k hk => ?_, h.past⟩⟩, fun c _ => ?_⟩, hlife⟩
  · simp only [step]
    rw [hw, map_some]
  · simp only [State.settle, hle]
    exact h.sorted.sublist filter_sublist
  · have hlt : (State.settle { s with timers := ⟨q, s.timers.timer, gone⟩ } Life.callerFreed).life t =
        (s.life t).map (Life.clean sm) := hlife t
    rw [hlt, mem_filter, h.mem t]
    constructor
    · intro ⟨⟨l, htl, hq⟩, hf⟩
      have hnf : ¬ (l.queued = true ∧ sm ≠ none ∧ l.owner = sm) := fun hc => by
        rw [(h.forSm hl htl hq).mpr hc.2] at hf
        cases hf
      refine ⟨l, ?_, hq⟩
      rw [htl, map_some, Life.clean, if_neg hnf]
    · intro ⟨k, hk, hq⟩
      obtain ⟨l, htl, rfl⟩ := map_eq_some_iff.mp hk
      unfold Life.clean at hq
      split at hq
      · cases hq
      · rename_i hnf
        refine ⟨⟨l, htl, hq⟩, ?_⟩
        rw [Bool.not_eq_true', ← Bool.not_eq_true, h.forSm hl htl hq]
        exact fun hc => hnf ⟨hq, hc⟩
  · rw [State.settle] at hk ⊢
    simp only [hlife t] at hk
    obtain ⟨l, htl, rfl⟩ := map_eq_some_iff.mp hk
    have hg := h.lives t l htl
    simp only [ha]
    unfold Life.clean
    split
    · rename_i hc
      exact (hg.callerFreed (hg.queued hc.1)).1
    · exact hg
  · intro t ⟨k, hk, hq, hdue⟩
    simp only [State.settle, hlife t] at hk hdue
    obtain ⟨l, htl, rfl⟩ := map_eq_some_iff.mp hk
    rw [ha] at hdue
    refine ⟨l, htl, ?_, hdue⟩
    unfold Life.clean at hq
    split at hq
    · cases hq
    · exact hq

theorem Inv.enter (h : Inv code s xs) : Kept code s { s with frames := s.ms :: s.frames } := by
  refine ⟨⟨xs, h.chain, h.sorted, h.mem, h.freed, h.now, fun c hc => ?_, h.lives, h.past⟩, fun c _ => Set.Subset.rfl⟩
  rcases mem_cons.mp hc with rfl | hc
  · rw [h.ms_toNat]
  · exact h.frames c hc

theorem Inv.tick (h : Inv code s xs) {now : ℕ} (hl : legal code s (.tick now)) : Kept code s { s with now } := by
  refine ⟨⟨xs, h.chain, h.sorted, h.mem, h.freed, hl.2, fun c hc => ?_, h.lives, h.past⟩, fun c _ => Set.Subset.rfl⟩
  exact (h.frames c hc).trans hl.1

/-! ### A turn of the handler -/

theorem Inv.drained (h : Inv code s xs) {c : UInt32} (hx : ∀ t ∈ xs.head?, c < s.timers.timerlist.addr t) :
    Drained c s := by
  have hall : ∀ t ∈ xs, c < s.timers.timerlist.addr t := by
    intro t ht
    cases xs with
    | nil => cases ht
    | cons y ys =>
      have hy : c < s.timers.timerlist.addr y := hx y rfl
      rcases mem_cons.mp ht with rfl | ht
      · exact hy
      · exact UInt32.lt_of_lt_of_le hy ((pairwise_cons.mp h.sorted).1 t ht)
  refine ⟨?_, fun t l hl hr hal => ?_⟩
  · rw [Set.eq_empty_iff_forall_notMem]
    intro t ⟨l, hl, hq, hle⟩
    exact absurd hle (UInt32.not_le.mpr (hall t ((h.mem t).mpr ⟨l, hl, hq⟩)))
  · obtain ⟨hq, ha, -⟩ := ((h.lives t l hl).running hr).next hal
    have := UInt32.lt_iff_toNat_lt.mp (hall t ((h.mem t).mpr ⟨l, hl, hq⟩))
    omega

theorem step_turn {c : UInt32} {cs : List UInt32} (hf : s.frames = c :: cs) {w : Timers} {t : Addr}
    {n : Option Notice} (hw : s.timers.turn c s.ms = some (w, some (t, n))) :
    step s .turn = some ((s.modify w t fun l => l.fire s.now n).settle Life.handlerFreed) := by
  simp only [step, hf]
  rw [hw, map_some]

theorem step_turn_stays {c : UInt32} {cs : List UInt32} (hf : s.frames = c :: cs) {w : Timers} {t : Addr}
    {n : Option Notice} (hw : s.timers.turn c s.ms = some (w, some (t, n))) (hfree : w.freed = []) :
    step s .turn = some (s.modify w t fun l => l.fire s.now n) := by
  have hnone : (s.modify w t fun l => l.fire s.now n).timers.freed = [] := hfree
  rw [step_turn hf hw, settle_none (fun _ => rfl) hnone]

/-- **A turn leaves the loop with no timer due, or fires one**, not due then. -/
theorem Inv.turn (h : Inv code s xs) {c : UInt32} {cs : List UInt32} (hf : s.frames = c :: cs)
    (hl : legal code s .turn) :
    ∃ s', step s .turn = some s' ∧ Kept code s s' ∧
      (s'.frames = cs ∧ Drained c s' ∨ s'.frames = s.frames ∧ s'.due c ⊂ s.due c) := by
  by_cases hx : ∀ t ∈ xs.head?, c < s.timers.timerlist.addr t
  · have hinv : Inv code { s with frames := cs } xs :=
      ⟨h.chain, h.sorted, h.mem, h.freed, h.now, fun d hd => h.frames d (hf ▸ mem_cons_of_mem _ hd),
        h.lives, h.past⟩
    refine ⟨{ s with frames := cs }, ?_, ⟨⟨xs, hinv⟩, fun d _ => Set.Subset.rfl⟩, .inl ⟨rfl, hinv.drained hx⟩⟩
    simp only [step, hf]
    rw [turn_stop h.chain s.ms hx, map_some]
  · push Not at hx
    obtain ⟨t, ht, hlt⟩ := hx
    have hle := UInt32.not_lt.mp hlt
    obtain ⟨ys, rfl⟩ : ∃ ys, xs = t :: ys := head?_eq_some_iff.mp ht
    have hhead : s.timers.timerlist.head = some t := h.chain.1
    obtain ⟨l, hlt, hq⟩ := (h.mem t).mp mem_cons_self
    have hg := h.lives t l hlt
    have hr := hg.queued hq
    have hnow : (s.timers.timerlist.addr t).toNat ≤ s.now :=
      (UInt32.le_iff_toNat_le.mp hle).trans (h.frames c (hf ▸ mem_cons_self))
    have hdue : t ∈ s.due c := ⟨l, hlt, hq, hle⟩
    have hstrict : ∀ {r : State}, r.due c ⊆ s.due c \ {t} → r.due c ⊂ s.due c := fun hsub =>
      Set.ssubset_iff_exists.mpr ⟨hsub.trans Set.sdiff_subset, t, hdue, fun hm => (hsub hm).2 rfl⟩
    obtain ⟨q, hturn⟩ := turn_fire h.chain s.ms hle
    by_cases hc : (s.timers.timer t).countDown.triggerCnt ≠ 0
    · rw [if_pos hc] at hturn
      obtain ⟨hw, hch, ha⟩ := hturn
      have hfit := hl.2 c (hf ▸ rfl) t hhead hle hc
      have hd := h.deadline hfit
      have hpos := (hg.running hr).pos
      rw [← (hg.running hr).interval] at hpos
      have herase : (t :: ys).erase t = ys := erase_cons_head ..
      rw [← herase] at hch
      have hnext := hg.fire hq hc hnow hd
      rw [← Timer.countDown_interval] at ha hd hpos hnext
      obtain ⟨hinv, hsub⟩ := h.insert hch ha (by omega) hnext hq h.past rfl
      refine ⟨_, ?_, ⟨hinv, fun d hd => (hsub d hd).trans Set.sdiff_subset⟩,
        .inr ⟨rfl, hstrict (hsub c (hf ▸ mem_cons_self))⟩⟩
      rw [step_turn_stays hf hw h.freed, State.modify, hlt, map_some]
    · rw [if_neg hc] at hturn
      obtain ⟨hw, hch, ha⟩ := hturn
      rw [h.freed, nil_append] at hw
      have herase : (t :: ys).erase t = ys := erase_cons_head ..
      rw [← herase] at hch
      let m := (s.timers.timer t).countDown
      let shot := l.fire s.now (s.timers.timer t).notice
      have ho : ∀ k, some (shot.handlerFreed 1) = some k →
          Good code m (s.timers.timerlist.addr t) k ∧ k.queued = false := by
        intro k hk
        obtain rfl := some.inj hk
        exact hg.fire_last hq (not_not.mp hc) hnow
      obtain ⟨hinv, hsub⟩ := h.drop hch ha ho rfl
      refine ⟨_, ?_, ⟨hinv, fun d _ => (hsub d).trans Set.sdiff_subset⟩, .inr ⟨rfl, hstrict (hsub c)⟩⟩
      have hs : State.settle { s with
          life := Function.update s.life t (some shot)
          timers := ⟨q, Function.update s.timers.timer t m, [t]⟩ } Life.handlerFreed = _ :=
        settle_one { s with life := Function.update s.life t (some shot) } t q
          (Function.update s.timers.timer t m) fun _ => rfl
      dsimp only at hs
      rw [update_self, map_some, update_idem] at hs
      rw [step_turn hf hw, State.modify, hlt, map_some]
      exact congrArg some hs

/-- **Every legal step** returns and keeps the invariant. -/
theorem Inv.step (h : Inv code s xs) {op : Op} (hl : legal code s op) :
    ∃ s', step s op = some s' ∧ Kept code s s' ∧
      (∀ sm, op = .cleanSm sm → ∀ t, s'.life t = (s.life t).map (Life.clean sm)) ∧
      (∀ c cs, op = .turn → s.frames = c :: cs →
        s'.frames = cs ∧ Drained c s' ∨ s'.frames = s.frames ∧ s'.due c ⊂ s.due c) := by
  cases op with
  | create mem sm interval cnt evt =>
    obtain ⟨s', h1, h2⟩ := h.create hl
    exact ⟨s', h1, h2, fun _ he => (by cases he), fun _ _ he => (by cases he)⟩
  | createCb mem interval cnt cb param =>
    obtain ⟨s', h1, h2⟩ := h.createCb hl
    exact ⟨s', h1, h2, fun _ he => (by cases he), fun _ _ he => (by cases he)⟩
  | own t m =>
    obtain ⟨s', h1, h2⟩ := h.own hl
    exact ⟨s', h1, h2, fun _ he => (by cases he), fun _ _ he => (by cases he)⟩
  | enqueue t =>
    obtain ⟨s', h1, h2⟩ := h.enqueue hl
    exact ⟨s', h1, h2, fun _ he => (by cases he), fun _ _ he => (by cases he)⟩
  | dequeue t =>
    obtain ⟨s', h1, h2⟩ := h.dequeue t
    exact ⟨s', h1, h2, fun _ he => (by cases he), fun _ _ he => (by cases he)⟩
  | free t =>
    obtain ⟨s', h1, h2⟩ := h.free hl
    exact ⟨s', h1, h2, fun _ he => (by cases he), fun _ _ he => (by cases he)⟩
  | cleanSm sm =>
    obtain ⟨s', h1, h2, h3⟩ := h.cleanSm hl
    refine ⟨s', h1, h2, fun _ he => ?_, fun _ _ he => (by cases he)⟩
    cases he
    exact h3
  | enter => exact ⟨_, rfl, h.enter, fun _ he => (by cases he), fun _ _ he => (by cases he)⟩
  | turn =>
    obtain ⟨c, cs, hf⟩ := exists_cons_of_ne_nil hl.1
    obtain ⟨s', h1, h2, h3⟩ := h.turn hf hl
    refine ⟨s', h1, h2, fun _ he => (by cases he), fun c' cs' _ hf' => ?_⟩
    obtain ⟨rfl, rfl⟩ := List.cons.inj (hf.symm.trans hf')
    exact h3
  | tick now => exact ⟨_, rfl, h.tick hl, fun _ he => (by cases he), fun _ _ he => (by cases he)⟩

theorem start_inv (h : (system code).start s) : Inv code s [] := by
  obtain ⟨q, timer, hnow, hs⟩ := h
  rw [hs]
  refine ⟨rfl, List.Pairwise.nil, fun t => ?_, rfl, hnow, fun c hc => (by cases hc), fun t l hl => (by cases hl),
    fun l hl => (by cases hl)⟩
  constructor
  · intro ht
    cases ht
  · intro ⟨l, hl, _⟩
    cases hl

theorem reach_inv (h : (system code).Reach s) : ∃ xs, Inv code s xs := by
  apply h.invariant (P := fun s => ∃ xs, Inv code s xs)
  · intro s hs
    exact ⟨[], start_inv hs⟩
  · intro s op s' _ ⟨xs, hi⟩ ⟨hl, hs⟩
    obtain ⟨s'', h1, h2, -⟩ := hi.step hl
    obtain rfl := some.inj (hs.symm.trans h1)
    exact h2.1

end

/-- **The timers are correct** in every state of every run: the list holds each timer put into it, once and
in order; each did what it should; calls return; `vsftimer_clean_sm` releases those of `sm`; and the handler
makes every shot due when it was called. -/
theorem timers_correct (code : Addr → Prop) (s : State) (h : (system code).Reach s) :
    Correct s ∧ ∀ op, legal code s op → ∃ s', step s op = some s' ∧
      (∀ c ∈ s.frames, s'.due c ⊆ s.due c) ∧
      (∀ sm, op = .cleanSm sm → ∀ t, s'.life t = (s.life t).map (Life.clean sm)) ∧
      (∀ c cs, op = .turn → s.frames = c :: cs →
        s'.frames = cs ∧ Drained c s' ∨ s'.frames = s.frames ∧ s'.due c ⊂ s.due c) := by
  obtain ⟨xs, hi⟩ := reach_inv h
  refine ⟨hi.correct, fun op hl => ?_⟩
  obtain ⟨s', h1, h2, h3⟩ := hi.step hl
  exact ⟨s', h1, h2.2, h3⟩

/-- Functions are in the first 4096 bytes. -/
def exampleCode (a : Addr) : Prop := a < 0x1000

/-- `vsftimer_init` at the time 0. -/
def exampleStart : State := ⟨⟨Queue.init ⟨none, none, fun _ => 0, fun _ => none⟩, fun _ => ⟨none, 0, 0, 0, 0⟩, []⟩,
  0, [], fun _ => none, []⟩

/-- A timer at 0x2000 that fires once, after 10 ms. -/
def exampleCreated (sm : Option Addr) : State :=
  (step exampleStart (.create (some 0x2000) sm 10 1 Evt.user)).getD exampleStart

theorem exampleCreated_reach (sm : Option Addr) : (system exampleCode).Reach (exampleCreated sm) := by
  apply System.Reach.step (i := .create (some 0x2000) sm 10 1 Evt.user) (s := exampleStart)
  · exact .start ⟨⟨none, none, fun _ => 0, fun _ => none⟩, fun _ => ⟨none, 0, 0, 0, 0⟩, by decide, rfl⟩
  · exact ⟨⟨fun t _ ⟨l, hl, _⟩ => (by cases hl), by decide, by decide, by decide⟩, rfl⟩

/-- The handler is called 10 ms later and makes one turn. -/
def exampleFired (sm : Option Addr) : State :=
  (((step (exampleCreated sm) (.tick 10)).bind fun s => step s .enter).bind fun s =>
    step s .turn).getD exampleStart

theorem exampleFired_reach (sm : Option Addr) : (system exampleCode).Reach (exampleFired sm) := by
  have htick : (system exampleCode).Reach { exampleCreated sm with now := 10 } :=
    (exampleCreated_reach sm).step (i := .tick 10) ⟨⟨Nat.zero_le 10, by decide⟩, rfl⟩
  have henter : (system exampleCode).Reach { exampleCreated sm with now := 10, frames := [10] } :=
    htick.step (i := .enter) ⟨trivial, rfl⟩
  refine henter.step (i := .turn) ⟨⟨cons_ne_nil _ _, fun c hc t ht hle hstay => ?_⟩, rfl⟩
  obtain rfl : 0x2000 = t := some.inj ht
  show 10 + (10 : UInt32).toNat < 2 ^ 32
  decide

theorem timers_correct_example :
    ((exampleFired (some 0x3000)).life 0x2000).map (fun l => (l.fired, l.released)) =
      some ([(10, some (.post 0x3000 Evt.user))], 1) ∧ Correct (exampleFired (some 0x3000)) :=
  ⟨rfl, (timers_correct exampleCode _ (exampleFired_reach _)).1⟩

/-- The timer of the state machine at 0x3000 is taken out of the list. -/
def exampleDequeued : State := (step (exampleCreated (some 0x3000)) (.dequeue 0x2000)).getD exampleStart

theorem exampleDequeued_reach : (system exampleCode).Reach exampleDequeued :=
  (exampleCreated_reach (some 0x3000)).step (i := .dequeue 0x2000) ⟨trivial, rfl⟩

/-- A timer not in the list is not found; one for no state machine fires unnoticed. -/
theorem clean_keeps_dequeued :
    ((system exampleCode).Reach exampleDequeued ∧ legal exampleCode exampleDequeued (.cleanSm (some 0x3000)) ∧
      (step exampleDequeued (.cleanSm (some 0x3000))).map
        (fun s => (s.life 0x2000).map fun l => (l.owner, l.released)) = some (some (some 0x3000, 0))) ∧
    (system exampleCode).Reach (exampleFired none) ∧
      ((exampleFired none).life 0x2000).map (fun l => (l.count, l.alone, l.fired)) = some (1, true, [(10, none)]) := by
  refine ⟨⟨exampleDequeued_reach, fun a ha => ?_, rfl⟩, exampleFired_reach none, rfl⟩
  obtain rfl := some.inj ha
  show ¬ (0x3000 : UInt32) < 0x1000
  decide

end Timers
end Vsf
