/-
# Bulk-only transport

`vsfusbd_MSC_BOT.c` receives a command wrapper, lets the SCSI layer execute it, moves the data, and
sends a status wrapper, a chain of transfers linked by `on_finish`. The length the SCSI layer moves
is never compared with that in the wrapper, nor its direction. `Meets` is that it wants no more than
the wrapper allows, and that as much is processed as it said (`commands_answered`).
-/
import Mathlib
import Vsf.Lib.System

namespace Vsf.Usbd

open Option UInt32

/-- `struct USBMSC_CBW_t`, without the command itself. -/
structure Cbw where
  signature : UInt32
  tag : UInt32
  length : UInt32
  flags : UInt8
  lun : UInt8
  cbLength : UInt8
  deriving DecidableEq, Repr

namespace Cbw

/-- `(bmCBWFlags & USBMSC_CBWFLAGS_DIR_MASK) == USBMSC_CBWFLAGS_DIR_IN`. -/
def isIn (c : Cbw) : Bool := c.flags &&& 0x80 = 0x80

/-- What `vsfusbd_MSCBOT_on_cbw` asks of a wrapper. -/
def wellFormed (c : Cbw) : Bool := c.signature = 0x43425355 && 1 ≤ c.cbLength && c.cbLength ≤ 16

end Cbw

/-- `struct USBMSC_CSW_t`. -/
structure Csw where
  tag : UInt32
  residue : UInt32
  status : UInt8
  deriving DecidableEq, Repr

/-- The functions in `transact.cb.on_finish`. -/
inductive OnFinish where
  | onCbw
  | onDataFinish
  | toSendCsw
  | onIdle
  deriving DecidableEq, Repr

/-- What `transact.stream` points at. -/
inductive BotStream where
  | null
  | bufstream
  | scsi
  deriving DecidableEq, Repr

/-- `struct vsfusbd_transact_t`: the transfer in progress. -/
structure BotTransact where
  /-- `ep` is `ep_in`. -/
  epIn : Bool
  dataSize : UInt32
  zlp : Bool
  stream : BotStream
  onFinish : OnFinish

/-- `scsi_dev->transact`. -/
structure ScsiTransact where
  /-- `lun != NULL`. -/
  lun : Bool
  dataSize : UInt32
  err : Bool

/-- What `vsfscsi_execute` does: if it fails, the transaction, and if it writes to the stream. -/
structure Executed where
  err : Bool
  lun : Bool
  dataSize : UInt32
  supplies : Bool

/-- What happened to a wrapper: if it came whole, the bytes moved, in and out, those the SCSI layer gave or
took, the answers, and the transactions begun and released. -/
structure BotRecord where
  cbw : Cbw
  whole : Bool
  movedIn : ℕ
  movedOut : ℕ
  processed : ℕ
  csws : List Csw
  begun : ℕ
  released : ℕ

/-- `struct vsfusbd_MSCBOT_param_t`, and the history. -/
structure Bot where
  /-- `scsi_dev->max_lun`. -/
  maxLun : UInt8
  /-- `vsfhal_usbd_ep_get_IN_epsize`. -/
  epSize : UInt32
  cbw : Cbw
  csw : Csw
  transact : BotTransact
  transactSize : UInt32
  scsi : ScsiTransact
  supplies : Bool
  cur : Option BotRecord
  past : List BotRecord

namespace Bot

/-! ### The transfers -/

def note (s : Bot) (f : BotRecord → BotRecord) : Bot := { s with cur := s.cur.map f }

/-- `vsfusbd_ep_send` and `vsfusbd_ep_recv`. -/
def begin (s : Bot) (epIn : Bool) (dataSize : UInt32) (stream : BotStream) (onFinish : OnFinish) : Bot :=
  { s with transact :=
    { s.transact with epIn := epIn, dataSize := dataSize, stream := stream, onFinish := onFinish } }

/-- `vsfscsi_release_transact`. -/
def release (s : Bot) : Bot :=
  { s with scsi := { s.scsi with lun := false } }.note fun r => { r with released := r.released + 1 }

/-- `vsfusbd_MSCBOT_SendCSW`. -/
def sendCsw (s : Bot) : Bot :=
  let remain := if s.scsi.lun then s.cbw.length - s.scsi.dataSize else s.cbw.length
  let s := if s.scsi.lun then s.release else s
  let csw : Csw := ⟨s.cbw.tag, remain, s.csw.status⟩
  let s := { s with csw := csw }.note fun r => { r with csws := r.csws ++ [csw] }
  s.begin true 13 .bufstream .onIdle

/-- `vsfusbd_MSCBOT_ErrHandler`. -/
def errHandler (s : Bot) (error : UInt8) : Bot :=
  let s := { s with csw := { s.csw with status := error } }
  if s.cbw.isIn ∧ s.cbw.length > 0 then
    let s := if s.scsi.lun then { s with scsi := { s.scsi with dataSize := 0 } } else s
    s.begin true 0 .null .toSendCsw
  else s.sendCsw

/-- `vsfusbd_MSCBOT_on_data_finish`; `remain` is what is left in the stream. -/
def onDataFinish (s : Bot) (remain : UInt32) : Bot :=
  let s := if s.scsi.err then { s with csw := { s.csw with status := 1 } } else s
  if s.cbw.isIn then
    if remain ≠ 0 then
      let s := { s with transact := { s.transact with zlp := s.cbw.length > s.scsi.dataSize } }
      s.begin s.transact.epIn remain .scsi .toSendCsw
    else if s.cbw.length > s.scsi.dataSize ∧ (s.transactSize - s.transact.dataSize) &&& (s.epSize - 1) = 0 then
      s.begin s.transact.epIn 0 .scsi .toSendCsw
    else s.sendCsw
  else if s.transact.dataSize ≠ 0 then s.begin s.transact.epIn s.transact.dataSize s.transact.stream .toSendCsw
  else s.sendCsw

/-- `vsfusbd_MSCBOT_on_idle`. -/
def onIdle (s : Bot) : Bot :=
  let s := { s with past := s.past ++ s.cur.toList, cur := none }
  s.begin false 31 .bufstream .onCbw

/-- `vsfusbd_MSCBOT_on_cbw`, behind `vsfscsi_execute`. -/
def afterExecute (s : Bot) (err : Bool) : Bot :=
  if err then s.errHandler 1
  else if s.cbw.length ≠ 0 then
    if s.scsi.lun = false then s.errHandler 1
    else
      let size := if s.scsi.dataSize ≠ 0 then s.scsi.dataSize else s.cbw.length
      { s with transactSize := size }.begin s.cbw.isIn size .scsi .onDataFinish
  else
    -- `vsfscsi_cancel_transact` only releases
    (if s.scsi.lun then s.release else s).sendCsw

/-- `vsfusbd_MSCBOT_on_cbw`. -/
def onCbw (s : Bot) (x : Executed) : Bot :=
  if s.transact.dataSize ≠ 0 ∨ s.cbw.wellFormed = false then s.onIdle
  else if s.cbw.lun > s.maxLun then s.errHandler 1
  else
    let s := { s with
      csw := { s.csw with status := 0 }
      scsi := ⟨x.lun, x.dataSize, false⟩
      supplies := x.supplies }.note fun r => { r with begun := r.begun + if x.lun then 1 else 0 }
    s.afterExecute x.err

/-! ### The runs -/

/-- How a transfer ends: a wrapper came, the data is over, but for `left` bytes, with `remain` in the
stream, and SCSI took `taken` of it and failed or not; the rest is over; the answer is sent. -/
inductive Act where
  | cbw (c : Cbw) (left : UInt32) (x : Executed)
  | data (left remain : UInt32) (taken : ℕ) (err : Bool)
  | rest (left : UInt32)
  | csw

/-- The bytes of a transfer that ended, `left` not moved: those to the host are the SCSI layer's, of those
from it what it took. -/
def carried (s : Bot) (left : UInt32) (taken : ℕ) (r : BotRecord) : BotRecord :=
  let n := s.transact.dataSize.toNat - left.toNat
  { r with
    movedIn := r.movedIn + if s.transact.epIn then n else 0
    movedOut := r.movedOut + if s.transact.epIn then 0 else n
    processed := r.processed + if s.transact.epIn then n else taken }

/-- A transfer has ended. -/
def moved (s : Bot) (left : UInt32) (taken : ℕ) : Bot :=
  { s with transact := { s.transact with dataSize := left } }.note (s.carried left taken)

/-- A transfer to the host of data that nobody writes is cancelled by `vsfusbd_on_IN_do`: `tx_ready` is not set,
or no more. -/
inductive Step : Bot → Act → Bot → Prop
  | cbw {s : Bot} (c : Cbw) (left : UInt32) (x : Executed) (hst : s.transact.onFinish = .onCbw) :
      Step s (.cbw c left x) ({ s with
        cbw := c
        transact := { s.transact with dataSize := left }
        cur := some ⟨c, left = 0, 0, 0, 0, [], 0, 0⟩ }.onCbw x)
  | data {s : Bot} (left remain : UInt32) (taken : ℕ) (err : Bool) (hst : s.transact.onFinish = .onDataFinish)
      (hleft : left ≤ s.transact.dataSize) (htaken : taken ≤ s.transact.dataSize.toNat - left.toNat)
      (hnone : s.cbw.isIn = true → s.supplies = false → left = s.transact.dataSize ∧ remain = 0) :
      Step s (.data left remain taken err)
        ({ s.moved left taken with scsi := { s.scsi with err := err } }.onDataFinish remain)
  | rest {s : Bot} (left : UInt32) (hst : s.transact.onFinish = .toSendCsw) (hleft : left ≤ s.transact.dataSize) :
      Step s (.rest left) (s.moved left 0).sendCsw
  | csw {s : Bot} (hst : s.transact.onFinish = .onIdle) : Step s .csw s.onIdle

/-- From `vsfusbd_MSCBOT_class_init` on. -/
def system : System Bot Act where
  start s := ∃ s₀ : Bot, s₀.scsi.lun = false ∧ s₀.cur = none ∧ s₀.past = [] ∧ s = s₀.onIdle
  step := Step

/-! ### What a wrapper is owed -/

/-- A wrapper that came whole and well formed. -/
def Valid (r : BotRecord) : Prop := r.whole = true ∧ r.cbw.wellFormed = true

/-- What is moved, while it is: no more than the wrapper allows, in its
direction. -/
structure Within (r : BotRecord) : Prop where
  le : r.movedIn + r.movedOut ≤ r.cbw.length.toNat
  dir_in : r.cbw.isIn = true → r.movedOut = 0
  dir_out : r.cbw.isIn = false → r.movedIn = 0

/-- A valid wrapper gets one status with its tag and residue; every transaction is released. -/
structure Answered (r : BotRecord) : Prop where
  within : Within r
  valid : Valid r → ∃ csw, r.csws = [csw] ∧ csw.tag = r.cbw.tag ∧
    csw.residue.toNat + r.processed = r.cbw.length.toNat
  invalid : ¬ Valid r → r.csws = [] ∧ r.movedIn + r.movedOut = 0 ∧ r.begun = 0
  released : r.released = r.begun

/-- How many transfers there can be before the next wrapper is waited for. -/
def rank : OnFinish → ℕ
  | .onCbw => 0
  | .onIdle => 1
  | .toSendCsw => 2
  | .onDataFinish => 3

/-- A wrapper gets its answer before the next; what is in progress can end, with less to do. -/
structure Correct (s : Bot) : Prop where
  past : ∀ r ∈ s.past, Answered r
  cur : ∀ r ∈ s.cur, Within r ∧ r.csws.length ≤ 1 ∧ r.released ≤ r.begun
  waits : s.transact.onFinish = .onCbw ↔ s.cur = none
  goes : ∃ a s', Step s a s'
  ends : s.transact.onFinish ≠ .onCbw → ∀ a s', Step s a s' → rank s'.transact.onFinish < rank s.transact.onFinish

/-- The condition under which it does. -/
def Meets (s : Bot) : Act → Prop
  | .cbw c left x => left = 0 → c.wellFormed = true → c.lun ≤ s.maxLun → x.lun = true →
    if x.err then x.dataSize = 0 ∨ c.isIn = true ∧ c.length ≠ 0
    else c.length ≠ 0 → x.dataSize ≤ c.length ∧ (x.supplies = c.isIn ∨ c.isIn = true ∧ x.dataSize = 0)
  | .data left remain taken _ =>
    (if s.cbw.isIn then s.transact.dataSize.toNat - left.toNat + remain.toNat else taken) = s.scsi.dataSize.toNat
  | .rest left => s.transact.epIn = true → left = 0
  | .csw => True

/-! ### The way to the answer -/

@[simp] theorem sendCsw_onFinish (s : Bot) : s.sendCsw.transact.onFinish = .onIdle := rfl

@[simp] theorem onIdle_onFinish (s : Bot) : s.onIdle.transact.onFinish = .onCbw := rfl

theorem onDataFinish_onFinish (s : Bot) (remain : UInt32) :
    (s.onDataFinish remain).transact.onFinish = .toSendCsw ∨ (s.onDataFinish remain).transact.onFinish = .onIdle := by
  unfold onDataFinish
  dsimp only
  split_ifs <;> simp [begin]

variable {s s' : Bot} {r : BotRecord}

/-- **The chain ends**: after a wrapper there are at most three transfers. -/
theorem step_rank {a : Act} (h : Step s a s') (ha : s.transact.onFinish ≠ .onCbw) :
    rank s'.transact.onFinish < rank s.transact.onFinish := by
  cases h with
  | cbw c left x hst => exact absurd hst ha
  | data left remain taken err hst =>
    rw [hst]
    rcases onDataFinish_onFinish { s.moved left taken with scsi := { s.scsi with err := err } } remain with h | h
    · rw [h]
      decide
    · rw [h]
      decide
  | rest left hst => simp [hst, rank]
  | csw hst => simp [hst, rank]

/-- The status that is sent. -/
def status (s : Bot) : Csw :=
  ⟨s.cbw.tag, if s.scsi.lun then s.cbw.length - s.scsi.dataSize else s.cbw.length, s.csw.status⟩

@[simp] theorem sendCsw_past (s : Bot) : s.sendCsw.past = s.past := by
  by_cases hlun : s.scsi.lun = true <;> simp [sendCsw, release, note, begin, hlun]

@[simp] theorem sendCsw_lun (s : Bot) : s.sendCsw.scsi.lun = false := by
  by_cases hlun : s.scsi.lun = true <;> simp [sendCsw, release, note, begin, hlun]

theorem sendCsw_cur (h : s.cur = some r) : s.sendCsw.cur = some { r with
    csws := r.csws ++ [s.status]
    released := r.released + if s.scsi.lun then 1 else 0 } := by
  by_cases hlun : s.scsi.lun = true <;> simp [sendCsw, release, note, begin, status, hlun, h]

/-! ### What every step keeps -/

/-- A wrapper that is not answered yet. -/
structure Pending (s : Bot) (r : BotRecord) : Prop where
  cur : s.cur = some r
  past : ∀ r ∈ s.past, Answered r
  valid : Valid r
  cbw_eq : r.cbw = s.cbw
  within : Within r
  none_yet : r.csws = []
  held : r.released + (if s.scsi.lun then 1 else 0) = r.begun

inductive Inv (s : Bot) : Prop
  | idle (hst : s.transact.onFinish = .onCbw) (hpast : ∀ r ∈ s.past, Answered r) (hcur : s.cur = none)
      (hlun : s.scsi.lun = false)
  | data {r : BotRecord} (hst : s.transact.onFinish = .onDataFinish) (h : Pending s r) (hlun : s.scsi.lun = true)
      (hep : s.transact.epIn = s.cbw.isIn) (hle : s.scsi.dataSize ≤ s.cbw.length)
      (hsize : s.transact.dataSize ≤ s.cbw.length) (hnone : r.movedIn = 0 ∧ r.movedOut = 0 ∧ r.processed = 0)
  | rest {r : BotRecord} (hst : s.transact.onFinish = .toSendCsw) (h : Pending s r)
      (hep : s.transact.epIn = s.cbw.isIn) (hle : s.scsi.lun = true → s.scsi.dataSize ≤ s.cbw.length)
      (hroom : r.movedIn + r.movedOut + s.transact.dataSize.toNat ≤ s.cbw.length.toNat)
      (hproc : r.processed + (if s.cbw.isIn then s.transact.dataSize.toNat else 0) =
        if s.scsi.lun then s.scsi.dataSize.toNat else 0)
  | csw {r : BotRecord} (hst : s.transact.onFinish = .onIdle) (hpast : ∀ r ∈ s.past, Answered r)
      (hcur : s.cur = some r) (hans : Answered r) (hone : r.csws.length = 1) (hlun : s.scsi.lun = false)

/-- The answer, once as much was processed as the SCSI layer said. -/
theorem Pending.sendCsw (h : Pending s r) (hle : s.scsi.lun = true → s.scsi.dataSize ≤ s.cbw.length)
    (hproc : r.processed = if s.scsi.lun then s.scsi.dataSize.toNat else 0) : Inv s.sendCsw := by
  refine .csw (sendCsw_onFinish s) (by simpa using h.past) (sendCsw_cur h.cur) ?_ (by simp [h.none_yet]) (sendCsw_lun s)
  refine ⟨⟨h.within.le, h.within.dir_in, h.within.dir_out⟩, fun _ => ⟨s.status, by simp [h.none_yet], ?_, ?_⟩,
    fun hno => absurd h.valid hno, h.held⟩
  · show s.cbw.tag = r.cbw.tag
    rw [h.cbw_eq]
  · show s.status.residue.toNat + r.processed = r.cbw.length.toNat
    rw [h.cbw_eq, hproc]
    unfold status
    by_cases hlun : s.scsi.lun = true
    · have hle' := le_iff_toNat_le.mp (hle hlun)
      simp only [hlun, if_true]
      rw [UInt32.toNat_sub_of_le _ _ (hle hlun)]
      omega
    · simp [hlun]

/-- A command that fails, with no data, or none yet. -/
theorem Pending.errHandler (h : Pending s r) (error : UInt8) (hproc : r.processed = 0)
    (hmoved : r.movedIn = 0 ∧ r.movedOut = 0)
    (hzero : s.scsi.lun = true → s.scsi.dataSize = 0 ∨ s.cbw.isIn = true ∧ s.cbw.length ≠ 0) :
    Inv (s.errHandler error) := by
  unfold Bot.errHandler
  dsimp only
  by_cases hzlp : s.cbw.isIn = true ∧ s.cbw.length > 0
  · rw [if_pos hzlp]
    by_cases hlun : s.scsi.lun = true
    · rw [if_pos hlun]
      refine .rest rfl { h with } hzlp.1.symm (fun _ => ?_) ?_ ?_
      · exact UInt32.le_iff_toNat_le.mpr (Nat.zero_le _)
      · simp [begin, hmoved]
      · simp [begin, hproc]
    · rw [if_neg hlun]
      refine .rest rfl { h with } hzlp.1.symm (fun hl => absurd hl hlun) ?_ ?_
      · simp [begin, hmoved]
      · simp [begin, hproc, hlun]
  · rw [if_neg hzlp]
    have hp : Pending { s with csw := { s.csw with status := error } } r := { h with }
    have hz : s.scsi.lun = true → s.scsi.dataSize = 0 := by
      intro hlun
      refine (hzero hlun).resolve_right fun hor => hzlp ⟨hor.1, ?_⟩
      exact lt_iff_toNat_lt.mpr (by
        have := fun he => hor.2 (UInt32.toNat_inj.mp he)
        simp at this ⊢
        omega)
    refine hp.sendCsw (fun hlun => ?_) ?_
    · show s.scsi.dataSize ≤ s.cbw.length
      rw [hz hlun]
      exact UInt32.le_iff_toNat_le.mpr (Nat.zero_le _)
    · show r.processed = if s.scsi.lun then s.scsi.dataSize.toNat else 0
      by_cases hlun : s.scsi.lun = true
      · simp [hproc, hlun, hz hlun]
      · simp [hproc, hlun]

theorem onIdle_inv (hpast : ∀ r ∈ s.past, Answered r) (hcur : s.cur = some r) (hans : Answered r)
    (hlun : s.scsi.lun = false) : Inv s.onIdle := by
  refine .idle rfl ?_ rfl hlun
  intro r' hr'
  rcases List.mem_append.mp hr' with h | h
  · exact hpast r' h
  · rw [hcur, toList_some, List.mem_singleton] at h
    exact h ▸ hans

theorem invalid_answered {c : Cbw} {left : UInt32} (h : left ≠ 0 ∨ c.wellFormed = false) :
    Answered ⟨c, left = 0, 0, 0, 0, [], 0, 0⟩ := by
  refine ⟨⟨Nat.zero_le _, fun _ => rfl, fun _ => rfl⟩, fun hv => ?_, fun _ => ⟨rfl, rfl, rfl⟩, rfl⟩
  rcases h with hl | hc
  · exact absurd (of_decide_eq_true hv.1) hl
  · have := hv.2.symm.trans hc
    cases this

/-- No data is wanted: the transaction is over before the answer. -/
theorem Pending.noData (h : Pending s r) (hproc : r.processed = 0) :
    Inv (if s.scsi.lun then s.release else s).sendCsw := by
  by_cases hlun : s.scsi.lun = true
  · rw [if_pos hlun]
    have hp : Pending s.release { r with released := r.released + 1 } := { h with
      cur := by simp [release, note, h.cur]
      within := ⟨h.within.le, h.within.dir_in, h.within.dir_out⟩
      held := by simpa [release, note, hlun] using h.held }
    exact hp.sendCsw (fun hl => nomatch hl) hproc
  · rw [if_neg hlun]
    exact h.sendCsw (fun hl => absurd hl hlun) (by simp [hproc, hlun])

theorem Pending.afterExecute (h : Pending s r) {err : Bool} (hproc : r.processed = 0)
    (hmoved : r.movedIn = 0 ∧ r.movedOut = 0)
    (hm : s.scsi.lun = true → if err then s.scsi.dataSize = 0 ∨ s.cbw.isIn = true ∧ s.cbw.length ≠ 0
      else s.cbw.length ≠ 0 → s.scsi.dataSize ≤ s.cbw.length) :
    Inv (s.afterExecute err) := by
  unfold Bot.afterExecute
  cases err with
  | true =>
    rw [if_pos rfl]
    exact h.errHandler 1 hproc hmoved fun hlun => by simpa using hm hlun
  | false =>
    rw [if_neg (by decide)]
    by_cases hlen : s.cbw.length ≠ 0
    · rw [if_pos hlen]
      by_cases hlun : s.scsi.lun = true
      · rw [if_neg (by simp [hlun])]
        have hle : s.scsi.dataSize ≤ s.cbw.length := by
          have := hm hlun
          rw [if_neg (by decide)] at this
          exact this hlen
        refine .data rfl { h with } hlun rfl hle ?_ ⟨hmoved.1, hmoved.2, hproc⟩
        by_cases hsize : s.scsi.dataSize ≠ 0
        · simpa [begin, hsize] using hle
        · simp [begin, hsize]
      · have hlun : s.scsi.lun = false := by simpa using hlun
        rw [if_pos hlun]
        refine h.errHandler 1 hproc hmoved fun hl => ?_
        rw [hlun] at hl
        cases hl
    · rw [if_neg hlen]
      exact h.noData hproc

theorem Inv.cbw (h : Inv s) (hst : s.transact.onFinish = .onCbw) {c : Cbw} {left : UInt32} {x : Executed}
    (hm : Meets s (.cbw c left x)) : Inv ({ s with
      cbw := c
      transact := { s.transact with dataSize := left }
      cur := some ⟨c, left = 0, 0, 0, 0, [], 0, 0⟩ }.onCbw x) := by
  obtain ⟨hpast, hlun⟩ : (∀ r ∈ s.past, Answered r) ∧ s.scsi.lun = false := by
    cases h with
    | idle _ hpast _ hlun => exact ⟨hpast, hlun⟩
    | data hst' => rw [hst] at hst'; cases hst'
    | rest hst' => rw [hst] at hst'; cases hst'
    | csw hst' => rw [hst] at hst'; cases hst'
  unfold Bot.onCbw
  dsimp only
  by_cases hbad : left ≠ 0 ∨ c.wellFormed = false
  · rw [if_pos hbad]
    exact onIdle_inv hpast rfl (invalid_answered hbad) hlun
  rw [if_neg hbad]
  obtain ⟨hleft, hform⟩ : left = 0 ∧ c.wellFormed = true := by simpa using hbad
  have hvalid : Valid ⟨c, left = 0, 0, 0, 0, [], 0, 0⟩ := ⟨decide_eq_true hleft, hform⟩
  by_cases hbig : c.lun > s.maxLun
  · -- no such unit
    rw [if_pos hbig]
    have hp : Pending { s with
        cbw := c
        transact := { s.transact with dataSize := left }
        cur := some ⟨c, left = 0, 0, 0, 0, [], 0, 0⟩ } ⟨c, left = 0, 0, 0, 0, [], 0, 0⟩ :=
      ⟨rfl, hpast, hvalid, rfl, ⟨Nat.zero_le _, fun _ => rfl, fun _ => rfl⟩, rfl, by simp [hlun]⟩
    refine hp.errHandler 1 rfl ⟨rfl, rfl⟩ fun hl => ?_
    rw [show s.scsi.lun = true from hl] at hlun
    cases hlun
  rw [if_neg hbig]
  refine Pending.afterExecute (r := ⟨c, left = 0, 0, 0, 0, [], 0 + (if x.lun then 1 else 0), 0⟩) ?_ rfl ⟨rfl, rfl⟩
    fun hlun => ?_
  · exact ⟨rfl, hpast, hvalid, rfl, ⟨Nat.zero_le _, fun _ => rfl, fun _ => rfl⟩, rfl, rfl⟩
  · have hmeets := hm hleft hform (UInt8.not_lt.mp hbig) hlun
    cases herr : x.err with
    | true =>
      rw [herr, if_pos rfl] at hmeets
      rw [if_pos rfl]
      exact hmeets
    | false =>
      rw [herr, if_neg (by decide)] at hmeets
      rw [if_neg (by decide)]
      exact fun hlen => (hmeets hlen).1

theorem Pending.moved (h : Pending s r) (left : UInt32) (taken : ℕ) (hep : s.transact.epIn = s.cbw.isIn)
    (hroom : r.movedIn + r.movedOut + s.transact.dataSize.toNat ≤ s.cbw.length.toNat) :
    ∃ r', Pending (s.moved left taken) r' ∧
      r'.movedIn + r'.movedOut = r.movedIn + r.movedOut + (s.transact.dataSize.toNat - left.toNat) ∧
      r'.processed = r.processed + if s.cbw.isIn then s.transact.dataSize.toNat - left.toNat else taken := by
  have hlen := h.cbw_eq
  refine ⟨_, { h with cur := congrArg (Option.map (s.carried left taken)) h.cur, within := ?_ }, ?_, ?_⟩
  · constructor
    · show r.movedIn + _ + (r.movedOut + _) ≤ r.cbw.length.toNat
      rw [hlen]
      split <;> omega
    · intro (hin : r.cbw.isIn = true)
      show r.movedOut + _ = 0
      rw [hlen] at hin
      simp [hep, hin, h.within.dir_in (hlen ▸ hin)]
    · intro (hout : r.cbw.isIn = false)
      show r.movedIn + _ = 0
      rw [hlen] at hout
      simp [hep, hout, h.within.dir_out (hlen ▸ hout)]
  · show r.movedIn + _ + (r.movedOut + _) = _
    split <;> omega
  · show r.processed + _ = _
    rw [hep]

theorem Pending.onDataFinish (h : Pending s r) (remain : UInt32) (hlun : s.scsi.lun = true)
    (hep : s.transact.epIn = s.cbw.isIn) (hle : s.scsi.dataSize ≤ s.cbw.length)
    (hroom : r.movedIn + r.movedOut + (if s.cbw.isIn then remain else s.transact.dataSize).toNat ≤ s.cbw.length.toNat)
    (hproc : r.processed + (if s.cbw.isIn then remain.toNat else 0) = s.scsi.dataSize.toNat) :
    Inv (s.onDataFinish remain) := by
  obtain ⟨st, hst, hp⟩ : ∃ st, (if s.scsi.err then { s with csw := { s.csw with status := 1 } } else s) =
      { s with csw := { s.csw with status := st } } ∧ Pending { s with csw := { s.csw with status := st } } r := by
    by_cases herr : s.scsi.err = true
    · exact ⟨1, if_pos herr, { h with }⟩
    · exact ⟨s.csw.status, if_neg herr, { h with }⟩
  unfold Bot.onDataFinish
  rw [hst]
  dsimp only
  by_cases hin : s.cbw.isIn = true
  · rw [if_pos hin] at hroom hproc ⊢
    by_cases hremain : remain ≠ 0
    · rw [if_pos hremain]
      refine .rest rfl { hp with } hep (fun _ => hle) hroom ?_
      simpa [begin, hin, hlun] using hproc
    · have hzero : remain = 0 := by simpa using hremain
      subst hzero
      rw [if_neg hremain]
      split
      · refine .rest rfl { hp with } hep (fun _ => hle) hroom ?_
        simpa [begin, hin, hlun] using hproc
      · exact hp.sendCsw (fun _ => hle) (by simpa [hlun] using hproc)
  · rw [if_neg hin] at hroom hproc ⊢
    split
    · refine .rest rfl { hp with } hep (fun _ => hle) hroom ?_
      simpa [begin, hin, hlun] using hproc
    · exact hp.sendCsw (fun _ => hle) (by simpa [hlun] using hproc)

theorem Inv.data_step (h : Inv s) {left remain : UInt32} {taken : ℕ} {err : Bool}
    (hst : s.transact.onFinish = .onDataFinish) (hleft : left ≤ s.transact.dataSize)
    (hm : Meets s (.data left remain taken err)) :
    Inv ({ s.moved left taken with scsi := { s.scsi with err := err } }.onDataFinish remain) := by
  cases h with
  | data _ h hlun hep hle hsize hnone =>
    obtain ⟨hin, hout, hproc⟩ := hnone
    have hsize' := le_iff_toNat_le.mp hsize
    have hleft' := le_iff_toNat_le.mp hleft
    have hle' := le_iff_toNat_le.mp hle
    obtain ⟨r', hp, hmoved, hproc'⟩ := h.moved left taken hep (by omega)
    have hm : (if s.cbw.isIn then s.transact.dataSize.toNat - left.toNat + remain.toNat else taken) =
      s.scsi.dataSize.toNat := hm
    rw [hproc, zero_add] at hproc'
    have hp' : Pending { s.moved left taken with scsi := { s.scsi with err := err } } r' := { hp with }
    refine hp'.onDataFinish remain hlun hep hle ?_ ?_
    · show r'.movedIn + r'.movedOut + (if s.cbw.isIn then remain else left).toNat ≤ s.cbw.length.toNat
      rw [hmoved, hin, hout]
      by_cases hisIn : s.cbw.isIn = true
      · rw [if_pos hisIn] at hm ⊢
        omega
      · rw [if_neg hisIn]
        omega
    · show r'.processed + (if s.cbw.isIn then remain.toNat else 0) = s.scsi.dataSize.toNat
      rw [hproc', ← hm]
      by_cases hisIn : s.cbw.isIn = true
      · rw [if_pos hisIn, if_pos hisIn, if_pos hisIn]
      · rw [if_neg hisIn, if_neg hisIn, if_neg hisIn, add_zero]
  | idle hst' => rw [hst] at hst'; cases hst'
  | rest hst' => rw [hst] at hst'; cases hst'
  | csw hst' => rw [hst] at hst'; cases hst'

theorem Inv.rest_step (h : Inv s) {left : UInt32} (hst : s.transact.onFinish = .toSendCsw)
    (hm : Meets s (.rest left)) : Inv (s.moved left 0).sendCsw := by
  cases h with
  | rest _ h hep hle hroom hproc =>
    obtain ⟨r', hp, -, hproc'⟩ := h.moved left 0 hep hroom
    refine hp.sendCsw hle ?_
    show r'.processed = if s.scsi.lun then s.scsi.dataSize.toNat else 0
    rw [← hproc, hproc']
    by_cases hin : s.cbw.isIn = true
    · have hzero : left = 0 := hm (hep.trans hin)
      simp [hin, hzero]
    · simp [hin]
  | idle hst' => rw [hst] at hst'; cases hst'
  | data hst' => rw [hst] at hst'; cases hst'
  | csw hst' => rw [hst] at hst'; cases hst'

theorem Inv.csw_step (h : Inv s) (hst : s.transact.onFinish = .onIdle) : Inv s.onIdle := by
  cases h with
  | csw _ hpast hcur hans _ hlun => exact onIdle_inv hpast hcur hans hlun
  | idle hst' => rw [hst] at hst'; cases hst'
  | data hst' => rw [hst] at hst'; cases hst'
  | rest hst' => rw [hst] at hst'; cases hst'

theorem Inv.step {a : Act} (h : Inv s) (hm : Meets s a) (hstep : Step s a s') : Inv s' := by
  cases hstep with
  | cbw c left x hst => exact h.cbw hst hm
  | data left remain taken err hst hleft => exact h.data_step hst hleft hm
  | rest left hst => exact h.rest_step hst hm
  | csw hst => exact h.csw_step hst

theorem start_inv (h : system.start s) : Inv s := by
  obtain ⟨s₀, hlun, hcur, hpast, rfl⟩ := h
  refine .idle rfl ?_ rfl hlun
  intro r hr
  simp [onIdle, begin, hcur, hpast] at hr

theorem Inv.correct (h : Inv s) : Correct s := by
  have hends : s.transact.onFinish ≠ .onCbw → ∀ a s', Step s a s' →
      rank s'.transact.onFinish < rank s.transact.onFinish := fun ha _ _ hstep => step_rank hstep ha
  cases h with
  | idle hst hpast hcur hlun =>
    exact ⟨hpast, by simp [hcur], by simp [hst, hcur],
      ⟨.cbw ⟨0, 0, 0, 0, 0, 0⟩ 0 ⟨false, false, 0, false⟩, _, .cbw _ _ _ hst⟩, hends⟩
  | data hst h hlun hep hle hsize hnone =>
    refine ⟨h.past, ?_, by simp [hst, h.cur], ⟨.data s.transact.dataSize 0 0 false, _,
      .data _ _ _ _ hst (UInt32.le_refl _) (Nat.zero_le _) fun _ _ => ⟨rfl, rfl⟩⟩, hends⟩
    intro r' hr'
    obtain rfl := some.inj (h.cur.symm.trans hr')
    exact ⟨h.within, by simp [h.none_yet], by have := h.held; omega⟩
  | rest hst h hep hle hroom hproc =>
    refine ⟨h.past, ?_, by simp [hst, h.cur], ⟨.rest 0, _, .rest _ hst ?_⟩, hends⟩
    · intro r' hr'
      obtain rfl := some.inj (h.cur.symm.trans hr')
      exact ⟨h.within, by simp [h.none_yet], by have := h.held; omega⟩
    · exact UInt32.le_iff_toNat_le.mpr (Nat.zero_le _)
  | csw hst hpast hcur hans hone hlun =>
    refine ⟨hpast, ?_, by simp [hst, hcur], ⟨.csw, _, .csw hst⟩, hends⟩
    intro r' hr'
    obtain rfl := some.inj (hcur.symm.trans hr')
    exact ⟨hans.within, hone.le, hans.released.le⟩

/-- **Every command is answered**: while the SCSI layer's wants fit the wrapper and are moved, a valid
wrapper gets one status, with its tag and what was not processed, the data stays within its length and
direction, each transaction is released once, and the next is waited for. -/
theorem commands_answered (h : (system.restrict Meets).Reach s) : Correct s :=
  (h.invariant (fun _ => start_inv) fun _ _ _ _ hinv hstep => hinv.step hstep.1 hstep.2).correct

/-- Before `vsfusbd_MSCBOT_class_init`: one logical unit. -/
def fresh : Bot where
  maxLun := 0
  epSize := 64
  cbw := ⟨0, 0, 0, 0, 0, 0⟩
  csw := ⟨0, 0, 0⟩
  transact := ⟨false, 0, false, .null, .onIdle⟩
  transactSize := 0
  scsi := ⟨false, 0, false⟩
  supplies := false
  cur := none
  past := []

/-- A command of 6 bytes that asks for 8. -/
def asksEight : Cbw := ⟨0x43425355, 7, 8, 0x80, 0, 6⟩

theorem fresh_reach {P : Bot → Act → Prop} : (system.restrict P).Reach fresh.onIdle := .start ⟨fresh, rfl, rfl, rfl, rfl⟩

/-- READ CAPACITY, and a WRITE of no blocks in an IN wrapper, whose data phase is cancelled. -/
theorem commands_answered_capacity : ∃ s : Bot,
    s.past.map BotRecord.csws = [[⟨7, 0, 0⟩], [⟨7, 8, 0⟩]] ∧ s.transact.onFinish = .onCbw ∧ Correct s := by
  have hcbw := fresh_reach.step (show Meets _ (.cbw asksEight 0 ⟨false, true, 8, true⟩) ∧ Step _ _ _ from
    ⟨fun _ _ _ _ _ => ⟨by decide, .inl rfl⟩, .cbw _ _ _ rfl⟩)
  have hdata := hcbw.step (show Meets _ (.data 0 0 0 false) ∧ Step _ _ _ from
    ⟨by rfl, .data _ _ _ _ (by rfl) (by decide) (Nat.zero_le _) (fun _ h => nomatch h)⟩)
  have hcsw := hdata.step (show Meets _ .csw ∧ Step _ _ _ from ⟨trivial, .csw (by rfl)⟩)
  have hcbw' := hcsw.step (show Meets _ (.cbw asksEight 0 ⟨false, true, 0, false⟩) ∧ Step _ _ _ from
    ⟨fun _ _ _ _ _ => ⟨by decide, .inr ⟨by decide, rfl⟩⟩, .cbw _ _ _ (by rfl)⟩)
  have hdata' := hcbw'.step (show Meets _ (.data 8 0 0 false) ∧ Step _ _ _ from
    ⟨by rfl, .data _ _ _ _ (by rfl) (by decide) (Nat.zero_le _) (fun _ _ => ⟨by rfl, rfl⟩)⟩)
  have hrest := hdata'.step (show Meets _ (.rest 0) ∧ Step _ _ _ from ⟨fun _ => rfl, .rest _ (by rfl) (by decide)⟩)
  have hcsw' := hrest.step (show Meets _ .csw ∧ Step _ _ _ from ⟨trivial, .csw (by rfl)⟩)
  exact ⟨_, by rfl, by rfl, commands_answered hcsw'⟩

/-- REQUEST SENSE sends 18 bytes where the wrapper allows 8: the residue wraps. -/
theorem commands_break : ¬ ∀ s : Bot, system.Reach s → Correct s := by
  intro h
  have hidle : system.Reach fresh.onIdle := .start ⟨fresh, rfl, rfl, rfl, rfl⟩
  have hcbw := hidle.step (show system.step _ (.cbw asksEight 0 ⟨false, true, 18, true⟩) _ from .cbw _ _ _ rfl)
  have hdata := hcbw.step (show system.step _ (.data 0 0 0 false) _ from
    .data _ _ _ _ (by rfl) (by decide) (Nat.zero_le _) (fun _ h => nomatch h))
  have hcsw := hdata.step (show system.step _ .csw _ from .csw (by rfl))
  have hans := (h _ hcsw).past ⟨asksEight, true, 18, 0, 18, [⟨7, 8 - 18, 0⟩], 1, 1⟩ (List.mem_singleton.mpr (by rfl))
  exact absurd hans.within.le (by decide)

end Bot
end Vsf.Usbd
