/-
# The embedded flash driver

`embflash_maldrv_erase`, `_read` and `_write` of `embflash.c` are one protothread: a page is
started, `VSFSM_EVT_USER` is waited for, and the next page follows. `pos` is set anew from `cursize`
on every resume, so from the second page on the hardware is sent one page too low; and the streams
post the same event number, which counts as a completion. `Meets` leaves both out.
-/
import Mathlib
import Vsf.Lib.System
import Vsf.Framework.Evtq

namespace Vsf

open Option

/-- `enum vsfmal_op_t`. -/
inductive MalOp where
  | erase
  | read
  | write
  deriving DecidableEq, Repr

/-- The flash: `vsfhal_flash_blocksize`, and what the other calls return at once. -/
structure Hal where
  blocksize : MalOp → UInt32 → UInt32 → UInt32
  start : MalOp → UInt32 → Int32

/-- Pages of one size, and an operation completes through the callback only. -/
structure Hal.Paged (hal : Hal) (page : UInt32) : Prop where
  pos : 0 < page.toNat
  blocksize_eq : ∀ op pos size, hal.blocksize op pos size = page
  start_eq : ∀ op pos, hal.start op pos = 0

/-- An operation: its arguments, `struct embflash_mal_t`, the event queue, and the result; the last fields
are the history of pages and callbacks. -/
structure Embflash where
  op : MalOp
  /-- `vsfhal_flash_direct_read`. -/
  direct : Bool
  addr : UInt64
  size : UInt32
  err : Int32
  cursize : UInt32
  pagesize : UInt32
  /-- `pt->state`: at the `vsfsm_pt_wfe`, or at the beginning. -/
  waiting : Bool
  busy : Bool
  queue : List Evt
  result : Option Int32
  started : List (UInt32 × UInt32)
  clash : Bool
  acks : List Int32

namespace Embflash

/-! ### The operations -/

/-- The hardware starts on a page. -/
def start (s : Embflash) (pos : UInt32) : Embflash :=
  { s with clash := s.clash || s.busy, busy := true, started := s.started ++ [(pos, s.cursize)] }

/-- The loop, up to the next `vsfsm_pt_wfe` or a return. -/
def loop (hal : Hal) (s : Embflash) (pos : UInt32) : Embflash :=
  if s.cursize < s.size then
    let s := { s with pagesize := hal.blocksize s.op pos (s.size - s.cursize) }
    if hal.start s.op pos ≠ 0 then { s with result := some (-6) }
    else { s.start pos with waiting := true }
  else { s with result := some 0 }

/-- `embflash_maldrv_erase`, `embflash_maldrv_read` and `embflash_maldrv_write`. -/
def call (hal : Hal) (s : Embflash) (evt : Evt) : Embflash :=
  let pos := s.addr.toUInt32 + s.cursize
  if ¬ s.waiting then
    if s.op = .read ∧ s.direct then { s with result := some 0 }
    else loop hal { s with cursize := 0 } s.addr.toUInt32
  else if evt ≠ Evt.user then s
  else if s.err ≠ 0 then { s with result := some s.err }
  else loop hal { s with cursize := s.cursize + s.pagesize } pos

/-- `embflash_maldrv_oncb`. -/
def oncb (s : Embflash) (err : Int32) : Embflash :=
  { s with busy := false, err := err, acks := s.acks ++ [err], queue := s.queue ++ [Evt.user] }

/-! ### The runs -/

/-- What may happen next. -/
inductive Act where
  /-- The hardware is done with the page. -/
  | complete (err : Int32)
  /-- An event from elsewhere. -/
  | post (evt : Evt)
  | deliver

inductive Step (hal : Hal) : Embflash → Act → Embflash → Prop
  | complete {s : Embflash} {err : Int32} (hbusy : s.busy = true) : Step hal s (.complete err) (s.oncb err)
  | post {s : Embflash} (evt : Evt) : Step hal s (.post evt) { s with queue := s.queue ++ [evt] }
  | deliver {s : Embflash} {evt : Evt} {q : List Evt} (hq : s.queue = evt :: q) :
      Step hal s .deliver (if s.result = none then call hal { s with queue := q } evt else { s with queue := q })

/-- Before the first call the hardware rests, the range is made of pages; events may be waiting. -/
structure Fresh (page : UInt32) (s : Embflash) : Prop where
  indirect : s.op = .read → s.direct = false
  addr_lt : s.addr.toNat < 2 ^ 32
  addr_dvd : page.toNat ∣ s.addr.toNat
  size_dvd : page.toNat ∣ s.size.toNat
  state_zero : s.waiting = false
  idle : s.busy = false
  result_none : s.result = none
  no_history : s.started = [] ∧ s.clash = false ∧ s.acks = []

/-- An operation, from its first call on. -/
def system (hal : Hal) (page : UInt32) : System Embflash Act where
  start s := ∃ s₀ evt, Fresh page s₀ ∧ s = s₀.call hal evt
  step := Step hal

/-! ### What an operation owes -/

/-- The pages of the range, and where their bytes are in the buffer. -/
def pages (page : UInt32) (s : Embflash) : List (ℕ × ℕ) :=
  (List.range (s.size.toNat / page.toNat)).map fun k => (s.addr.toNat + k * page.toNat, k * page.toNat)

/-- What an operation owes: the pages in order, each after the callback before, then success or the first
error. -/
structure Correct (page : UInt32) (s : Embflash) : Prop where
  in_order : s.started.map (fun p => (p.1.toNat, p.2.toNat)) <+: pages page s
  one_at_a_time : s.clash = false
  acked : s.started.length = s.acks.length + if s.busy then 1 else 0
  done : s.result = some 0 → s.started.map (fun p => (p.1.toNat, p.2.toNat)) = pages page s ∧ s.busy = false ∧
    ∀ err ∈ s.acks, err = 0
  failed : ∀ err, err ≠ 0 → s.result = some err → s.busy = false ∧ s.acks.getLast? = some err ∧
    ∀ err' ∈ s.acks.dropLast, err' = 0
  waits : s.result = none → s.busy = true ∨ Evt.user ∈ s.queue

/-- The condition: a `VSFSM_EVT_USER` comes after the callback, and no second page follows. -/
def Meets (page : UInt32) (s : Embflash) (a : Act) : Prop :=
  ∀ q, a = .deliver → s.queue = Evt.user :: q → s.result = none →
    s.busy = false ∧ (s.size.toNat ≤ page.toNat ∨ s.err ≠ 0)

/-- What every such step keeps: no page at all, or the first. -/
inductive Inv (page : UInt32) (s : Embflash) : Prop
  | empty (hsize : s.size.toNat = 0) (hres : s.result = some 0) (hbusy : s.busy = false) (hstarted : s.started = [])
      (hacks : s.acks = []) (hclash : s.clash = false)
  | running (hsize : page.toNat ≤ s.size.toNat) (hres : s.result = none) (hbusy : s.busy = true)
      (hwait : s.waiting = true) (hcur : s.cursize = 0) (hpage : s.pagesize = page)
      (hstarted : s.started = [(s.addr.toUInt32, 0)]) (hacks : s.acks = []) (hclash : s.clash = false)
  | acked (hsize : page.toNat ≤ s.size.toNat) (hres : s.result = none) (hbusy : s.busy = false)
      (hwait : s.waiting = true) (hcur : s.cursize = 0) (hpage : s.pagesize = page)
      (hstarted : s.started = [(s.addr.toUInt32, 0)]) (hacks : s.acks = [s.err]) (hclash : s.clash = false)
      (huser : Evt.user ∈ s.queue)
  | ended {err : Int32} (hsize : page.toNat ≤ s.size.toNat) (hres : s.result = some err) (hbusy : s.busy = false)
      (hstarted : s.started = [(s.addr.toUInt32, 0)]) (hacks : s.acks = [err]) (hclash : s.clash = false)
      (hone : err = 0 → s.size.toNat = page.toNat)

variable {hal : Hal} {page : UInt32}

variable {s s' : Embflash} {a : Act}

theorem Fresh.inv (hp : hal.Paged page) (h : Fresh page s) (evt : Evt) : Inv page (s.call hal evt) := by
  obtain ⟨h1, h2, h3⟩ := h.no_history
  have hdirect : ¬ (s.op = .read ∧ s.direct = true) := by
    rintro ⟨hop, hd⟩
    exact absurd ((h.indirect hop).symm.trans hd) (by simp)
  unfold call
  rw [if_pos (by simp [h.state_zero]), if_neg hdirect]
  unfold loop
  by_cases hpos : (0 : UInt32) < s.size
  · rw [if_pos hpos, if_neg (by simp [hp.start_eq])]
    have hsize : page.toNat ≤ s.size.toNat := Nat.le_of_dvd (UInt32.lt_iff_toNat_lt.mp hpos) h.size_dvd
    exact .running hsize h.result_none rfl rfl rfl (hp.blocksize_eq _ _ _) (by simp [start, h1]) h3
      (by simp [start, h2, h.idle])
  · rw [if_neg hpos]
    have hsize : s.size.toNat = 0 := by
      rw [UInt32.lt_iff_toNat_lt, UInt32.toNat_zero] at hpos
      omega
    exact .empty hsize rfl h.idle h1 h3 h2

/-- What is in the queue matters only while the completion is waited for. -/
theorem Inv.post (h : Inv page s) (evt : Evt) : Inv page { s with queue := s.queue ++ [evt] } := by
  cases h with
  | empty h1 h2 h3 h4 h5 h6 => exact .empty h1 h2 h3 h4 h5 h6
  | running h1 h2 h3 h4 h5 h6 h7 h8 h9 => exact .running h1 h2 h3 h4 h5 h6 h7 h8 h9
  | acked h1 h2 h3 h4 h5 h6 h7 h8 h9 h10 =>
    exact .acked h1 h2 h3 h4 h5 h6 h7 h8 h9 (List.mem_append_left _ h10)
  | ended h1 h2 h3 h4 h5 h6 h7 => exact .ended h1 h2 h3 h4 h5 h6 h7

theorem Inv.complete (h : Inv page s) (hbusy : s.busy = true) (err : Int32) : Inv page (s.oncb err) := by
  cases h with
  | empty _ _ hb => simp [hb] at hbusy
  | running h1 h2 _ h4 h5 h6 h7 h8 h9 =>
    exact .acked h1 h2 rfl h4 h5 h6 h7 (by simp [oncb, h8]) h9 (by simp [oncb])
  | acked _ _ hb => simp [hb] at hbusy
  | ended _ _ hb => simp [hb] at hbusy

theorem Inv.deliver {s : Embflash} (h : Inv page s) {evt : Evt} {q : List Evt} (hq : s.queue = evt :: q)
    (hm : Meets page s .deliver) :
    Inv page (if s.result = none then call hal { s with queue := q } evt else { s with queue := q }) := by
  cases h with
  | empty h1 h2 h3 h4 h5 h6 =>
    rw [if_neg (by simp [h2])]
    exact .empty h1 h2 h3 h4 h5 h6
  | running h1 h2 h3 h4 h5 h6 h7 h8 h9 =>
    -- the event is not the one waited for
    have hevt : evt ≠ Evt.user := by
      rintro rfl
      exact absurd ((hm q rfl hq h2).1.symm.trans h3) (by simp)
    rw [if_pos h2]
    unfold call
    rw [if_neg (by simp [h4]), if_pos hevt]
    exact .running h1 h2 h3 h4 h5 h6 h7 h8 h9
  | acked h1 h2 h3 h4 h5 h6 h7 h8 h9 h10 =>
    rw [if_pos h2]
    unfold call
    rw [if_neg (by simp [h4])]
    by_cases hevt : evt = Evt.user
    · rw [if_neg (not_not.mpr hevt)]
      rw [hevt] at hq
      obtain ⟨-, hone⟩ := hm q rfl hq h2
      by_cases herr : s.err = 0
      · rw [if_neg (not_not.mpr herr)]
        have hsize : s.size.toNat = page.toNat := by
          have := hone.resolve_right (not_not.mpr herr)
          omega
        unfold loop
        rw [if_neg (by simp [h5, h6, UInt32.lt_iff_toNat_lt, hsize])]
        exact .ended h1 rfl h3 h7 (h8.trans (by rw [herr])) h9 fun _ => hsize
      · rw [if_pos herr]
        exact .ended h1 rfl h3 h7 h8 h9 fun hz => absurd hz herr
    · rw [if_pos hevt]
      rw [hq] at h10
      exact .acked h1 h2 h3 h4 h5 h6 h7 h8 h9 (List.mem_of_ne_of_mem (Ne.symm hevt) h10)
  | ended h1 h2 h3 h4 h5 h6 h7 =>
    rw [if_neg (by simp [h2])]
    exact .ended h1 h2 h3 h4 h5 h6 h7

theorem Inv.step (h : Inv page s) (hm : Meets page s a) (hst : Step hal s a s') : Inv page s' := by
  cases hst with
  | complete hbusy => exact h.complete hbusy _
  | post evt => exact h.post evt
  | deliver hq => exact h.deliver hq hm

@[simp] theorem loop_addr (s : Embflash) (pos : UInt32) : (s.loop hal pos).addr = s.addr := by
  unfold loop
  by_cases hmore : s.cursize < s.size
  · by_cases href : hal.start s.op pos = 0 <;> simp [hmore, href, start]
  · simp [hmore]

@[simp] theorem call_addr (s : Embflash) (evt : Evt) : (s.call hal evt).addr = s.addr := by
  unfold call
  split_ifs <;> simp

theorem Step.addr_eq (h : Step hal s a s') : s'.addr = s.addr := by
  cases h with
  | complete hbusy => rfl
  | post evt => rfl
  | deliver hq => split_ifs <;> simp

theorem pages_first (hpos : 0 < page.toNat) (haddr : s.addr.toNat < 2 ^ 32) (hsize : page.toNat ≤ s.size.toNat) :
    [((s.addr.toUInt32, (0 : UInt32)))].map (fun p => (p.1.toNat, p.2.toNat)) <+: pages page s ∧
      (s.size.toNat = page.toNat →
        [((s.addr.toUInt32, (0 : UInt32)))].map (fun p => (p.1.toNat, p.2.toNat)) = pages page s) := by
  have hlow : s.addr.toUInt32.toNat = s.addr.toNat := by
    rw [UInt64.toNat_toUInt32, Nat.mod_eq_of_lt haddr]
  constructor
  · obtain ⟨n, hn⟩ : ∃ n, s.size.toNat / page.toNat = n + 1 :=
      Nat.exists_eq_succ_of_ne_zero (Nat.div_pos hsize hpos).ne'
    rw [pages, hn, List.range_succ_eq_map]
    simp [hlow]
  · intro hone
    rw [pages, hone, Nat.div_self hpos]
    simp [hlow]

theorem Inv.correct (h : Inv page s) (hpos : 0 < page.toNat) (haddr : s.addr.toNat < 2 ^ 32) :
    Correct page s := by
  cases h with
  | empty hsize hres hbusy hstarted hacks hclash =>
    have hnone : pages page s = [] := by simp [pages, hsize]
    refine ⟨by simp [hstarted], hclash, by simp [hstarted, hacks, hbusy], fun _ => ?_, fun err hne hr => ?_, fun hr => ?_⟩
    · exact ⟨by simp [hstarted, hnone], hbusy, by simp [hacks]⟩
    · rw [hres] at hr
      exact absurd (some.inj hr).symm hne
    · simp [hres] at hr
  | running hsize hres hbusy hwait hcur hpage hstarted hacks hclash =>
    obtain ⟨hfirst, -⟩ := pages_first hpos haddr hsize
    refine ⟨by rw [hstarted]; exact hfirst, hclash, by simp [hstarted, hacks, hbusy], fun hr => ?_, fun err _ hr => ?_,
      fun _ => .inl hbusy⟩
    · simp [hres] at hr
    · simp [hres] at hr
  | acked hsize hres hbusy hwait hcur hpage hstarted hacks hclash huser =>
    obtain ⟨hfirst, -⟩ := pages_first hpos haddr hsize
    refine ⟨by rw [hstarted]; exact hfirst, hclash, by simp [hstarted, hacks, hbusy], fun hr => ?_, fun err _ hr => ?_,
      fun _ => .inr huser⟩
    · simp [hres] at hr
    · simp [hres] at hr
  | ended hsize hres hbusy hstarted hacks hclash hone =>
    obtain ⟨hfirst, hwhole⟩ := pages_first hpos haddr hsize
    refine ⟨by rw [hstarted]; exact hfirst, hclash, by simp [hstarted, hacks, hbusy], fun hr => ?_, fun err _ hr => ?_,
      fun hr => ?_⟩
    · rw [hres] at hr
      obtain rfl := some.inj hr
      exact ⟨by rw [hstarted]; exact hwhole (hone rfl), hbusy, by simp [hacks]⟩
    · rw [hres] at hr
      obtain rfl := some.inj hr
      exact ⟨hbusy, by simp [hacks], by simp [hacks]⟩
    · simp [hres] at hr

/-- **Pages in order, each after the one before**, under the condition. -/
theorem pages_once (hp : hal.Paged page) {s : Embflash} (h : ((system hal page).restrict (Meets page)).Reach s) :
    Correct page s := by
  have hinv : s.addr.toNat < 2 ^ 32 ∧ Inv page s := by
    apply h.invariant
    · rintro s ⟨s₀, evt, hfresh, rfl⟩
      exact ⟨by rw [call_addr]; exact hfresh.addr_lt, hfresh.inv hp evt⟩
    · rintro s a s' - ⟨haddr, hi⟩ ⟨hm, hst⟩
      exact ⟨by rw [hst.addr_eq]; exact haddr, hi.step hm hst⟩
  exact hinv.2.correct hp.pos hinv.1

/-- Flash pages of four bytes. -/
def fourBytes : Hal where
  blocksize _ _ _ := 4
  start _ _ := 0

theorem fourBytes_paged : fourBytes.Paged 4 := ⟨by decide, fun _ _ _ => rfl, fun _ _ => rfl⟩

/-- A write of `size` bytes from address 16 on. -/
def writeAt16 (size : UInt32) : Embflash where
  op := .write
  direct := true
  addr := 16
  size := size
  err := 0
  cursize := 0
  pagesize := 0
  waiting := false
  busy := false
  queue := []
  result := none
  started := []
  clash := false
  acks := []

theorem pages_once_write : ∃ s : Embflash, s.result = some 0 ∧ s.started = [(16, 0)] ∧ Correct 4 s := by
  have hstart : ((system fourBytes 4).restrict (Meets 4)).Reach ((writeAt16 4).call fourBytes Evt.init) :=
    .start ⟨writeAt16 4, _, ⟨by decide, by decide, by decide, by decide, rfl, rfl, rfl, ⟨rfl, rfl, rfl⟩⟩, rfl⟩
  have hack := hstart.step (show Meets 4 _ (.complete 0) ∧ Step fourBytes _ _ _ from
    ⟨fun _ ha => (nomatch ha), .complete rfl⟩)
  have hend := hack.step (show Meets 4 _ .deliver ∧ Step fourBytes _ _ _ from
    ⟨fun _ _ _ _ => ⟨rfl, .inl (by decide)⟩, .deliver rfl⟩)
  exact ⟨_, by decide, by decide, pages_once fourBytes_paged hend⟩

/-- Two pages: the second is written over the first. -/
theorem pages_break : ¬ ∀ s, (system fourBytes 4).Reach s → Correct 4 s := by
  intro h
  have hstart : (system fourBytes 4).Reach ((writeAt16 8).call fourBytes Evt.init) :=
    .start ⟨writeAt16 8, _, ⟨by decide, by decide, by decide, by decide, rfl, rfl, rfl, ⟨rfl, rfl, rfl⟩⟩, rfl⟩
  have hack := hstart.step (show Step fourBytes _ (.complete 0) _ from .complete rfl)
  have hnext := hack.step (.deliver rfl)
  exact absurd (h _ hnext).in_order (by decide)

end Embflash

end Vsf
