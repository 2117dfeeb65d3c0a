/-
# Input reports of a HID device

`vsfusbd_HID_evt_handler` sends one report at a time. A scan goes on from behind the last one sent
to the end of the list, and takes the first report that was changed or quiet for too long; the next
begins at the front. So every other report is sent at most once before one that stays changed, and
no two scans in a row find nothing.
-/
import Mathlib
import Vsf.Lib.System

namespace Vsf
namespace Usbd

open List Function

/-- `struct vsfusbd_HID_report_t`; `input` is `USB_HID_REPORT_INPUT`. -/
structure HidReport where
  input : Bool
  id : UInt8
  idle : UInt8
  idleCnt : UInt8
  changed : Bool

/-- `struct vsfusbd_HID_param_t`; `num` is `num_of_report`, a byte. The history: the transfers under way,
the reports sent, and the timer events that came with none under way. -/
structure Hid where
  num : ℕ
  reports : ℕ → HidReport
  curReport : ℕ
  curInId : UInt8
  busy : Bool
  outstanding : ℕ
  started : List ℕ
  ticks : ℕ

namespace Hid

/-! ### The operations -/

/-- A report to be sent. -/
def wants (r : HidReport) : Bool := r.input && (r.changed || (decide (r.idle ≠ 0) && decide (r.idle ≤ r.idleCnt)))

/-- The report at the cursor is sent; `vsfusbd_ep_send` has taken it. -/
def start (s : Hid) : Hid :=
  { s with
    curInId := (s.reports s.curReport).id
    reports := Function.update s.reports s.curReport { s.reports s.curReport with changed := false, idleCnt := 0 }
    curReport := s.curReport + 1
    busy := true
    outstanding := s.outstanding + 1
    started := s.started ++ [s.curReport] }

/-- The loop over the reports, so many of them. -/
def scan : ℕ → Hid → Hid
  | 0, s => s
  | n + 1, s => if wants (s.reports s.curReport) then s.start else scan n { s with curReport := s.curReport + 1 }

/-- Where a scan begins. -/
def front (s : Hid) : ℕ := if s.num ≤ s.curReport then 0 else s.curReport

/-- `VSFUSBD_HID_EVT_INREPORT`. -/
def inReport (s : Hid) : Hid := if s.busy then s else scan (s.num - s.front) { s with curReport := s.front }

/-- A report gets older. -/
def older (r : HidReport) : HidReport := if r.input ∧ r.idle ≠ 0 then { r with idleCnt := r.idleCnt + 1 } else r

def age (s : Hid) : Hid := { s with reports := fun i => if i < s.num then older (s.reports i) else s.reports i }

/-- `VSFUSBD_HID_EVT_TIMER4MS`, which goes on with `VSFUSBD_HID_EVT_INREPORT`. -/
def timer4ms (s : Hid) : Hid := if s.age.busy then s.age else s.age.inReport

/-- `report->changed = true`. -/
def mark (s : Hid) (k : ℕ) : Hid := { s with reports := Function.update s.reports k { s.reports k with changed := true } }

/-- `vsfusbd_HID_IN_report_changed`; from another event queue an instant event is refused. -/
def reportChanged (s : Hid) (k : ℕ) (posted : Bool) : Hid :=
  let s := s.mark k
  if s.busy = false ∧ posted = true then s.inReport else s

/-- `vsfusbd_HID_INREPORT_callback`; `on_report_out` may change reports. -/
def callback (s : Hid) (calls : List ℕ) : Hid :=
  (calls.foldl (fun (s : Hid) k => s.reportChanged k true) { s with busy := false }).inReport

/-! ### The runs -/

inductive Act where
  | changed (k : ℕ) (posted : Bool)
  | timer
  | finished (calls : List ℕ)
deriving DecidableEq

/-- Input reports are changed, timer events come, transfers end. -/
inductive Step : Hid → Act → Hid → Prop
  | changed {s : Hid} (k : ℕ) (posted : Bool) (hk : k < s.num) : Step s (.changed k posted) (s.reportChanged k posted)
  | timer {s : Hid} : Step s .timer (timer4ms { s with ticks := s.ticks + if s.outstanding = 0 then 1 else 0 })
  | finished {s : Hid} (calls : List ℕ) (hk : ∀ k ∈ calls, k < s.num) (hout : s.outstanding ≠ 0) :
      Step s (.finished calls) (callback { s with outstanding := s.outstanding - 1 } calls)

/-- After `VSFSM_EVT_INIT`; the cursor and the flags may be from before. -/
structure Fresh (s : Hid) : Prop where
  num_lt : s.num < 256
  cur_le : s.curReport ≤ s.num
  busy : s.busy = false
  outstanding : s.outstanding = 0

def system : System Hid Act where
  start := Fresh
  step := Step

/-- An input report that is changed. -/
def Changed (s : Hid) (k : ℕ) : Prop := k < s.num ∧ (s.reports k).input = true ∧ (s.reports k).changed = true

/-- **What the schedule promises** of a run that begins with report `k` changed and sends `new`: before `k`
each other one at most once; while `k` is not sent it stays changed, with fewer than `2 * num` idle timer
events; if idle at first, the second timer event finds a transfer started. -/
structure Fair (s : Hid) : Prop where
  one : s.outstanding ≤ 1
  cleared : ∀ a s', Step s a s' → ∀ k, (s.reports k).changed = true → (s'.reports k).changed = false →
    s'.started = s.started ++ [k]
  sent : ∀ l s', system.Run s l s' → ∀ k, s.Changed k → ∃ new, s'.started = s.started ++ new ∧
    (new.takeWhile (· ≠ k)).Nodup ∧ (k ∉ new → s'.Changed k ∧ s'.ticks < s.ticks + 2 * s.num) ∧
    (s.outstanding = 0 → 2 ≤ l.count .timer → new ≠ [])

/-! ### A scan -/

variable {s s' : Hid} {k : ℕ}

theorem Changed.wants (h : s.Changed k) : wants (s.reports k) = true := by
  simp [Hid.wants, h.2.1, h.2.2]

/-- A scan sends the first report that it should, or gets to the end. -/
theorem scan_spec : ∀ (n : ℕ) (s : Hid), ∃ m, s.curReport ≤ m ∧ m ≤ s.curReport + n ∧
    (∀ i, s.curReport ≤ i → i < m → wants (s.reports i) = false) ∧
    ((m < s.curReport + n ∧ wants (s.reports m) = true ∧ scan n s = start { s with curReport := m }) ∨
      (m = s.curReport + n ∧ scan n s = { s with curReport := m }))
  | 0, s => ⟨s.curReport, le_rfl, le_rfl, fun i h1 h2 => absurd h1 (by omega), .inr ⟨rfl, rfl⟩⟩
  | n + 1, s => by
    rw [scan]
    by_cases hw : wants (s.reports s.curReport) = true
    · rw [if_pos hw]
      exact ⟨s.curReport, le_rfl, by omega, fun i h1 h2 => absurd h1 (by omega), .inl ⟨by omega, hw, rfl⟩⟩
    · rw [if_neg hw]
      obtain ⟨m, hlo, hhi, hall, hend⟩ := scan_spec n { s with curReport := s.curReport + 1 }
      dsimp only at hlo hhi hall hend
      refine ⟨m, by omega, by omega, fun i h1 h2 => ?_, ?_⟩
      · rcases eq_or_lt_of_le h1 with rfl | hlt
        · exact Bool.not_eq_true _ ▸ hw
        · exact hall i hlt h2
      · rcases hend with ⟨hlt, hwm, heq⟩ | ⟨hm, heq⟩
        · exact .inl ⟨by omega, hwm, heq⟩
        · exact .inr ⟨by omega, heq⟩

/-- What `VSFUSBD_HID_EVT_INREPORT` does when no transfer is under way. -/
theorem inReport_spec (hbusy : s.busy = false) (hcur : s.curReport ≤ s.num) : ∃ m, s.front ≤ m ∧ m ≤ s.num ∧
    (∀ i, s.front ≤ i → i < m → wants (s.reports i) = false) ∧
    ((m < s.num ∧ wants (s.reports m) = true ∧ s.inReport = start { s with curReport := m }) ∨
      (m = s.num ∧ s.inReport = { s with curReport := m })) := by
  have hfront : s.front ≤ s.num := by
    unfold front
    split_ifs <;> omega
  rw [inReport, if_neg (by simp [hbusy])]
  obtain ⟨m, hlo, hhi, hall, hcases⟩ := scan_spec (s.num - s.front) { s with curReport := s.front }
  dsimp only at hlo hhi hall hcases
  exact ⟨m, hlo, by omega, hall, hcases.imp (fun h => ⟨by omega, h.2⟩) fun h => ⟨by omega, h.2⟩⟩

theorem inReport_busy (hbusy : s.busy = true) : s.inReport = s := by
  rw [inReport, if_pos hbusy]

/-- With report `k` changed, a scan sends one, or `k` is in front of its beginning. -/
theorem inReport_changed (hbusy : s.busy = false) (hcur : s.curReport ≤ s.num) (hk : s.Changed k) :
    (∃ m, s.front ≤ m ∧ m < s.num ∧ (s.front ≤ k → m ≤ k) ∧ s.inReport = start { s with curReport := m }) ∨
      (k < s.front ∧ s.inReport = { s with curReport := s.num }) := by
  obtain ⟨m, hlo, hhi, hall, ⟨hlt, -, heq⟩ | ⟨rfl, heq⟩⟩ := inReport_spec hbusy hcur
  · refine .inl ⟨m, hlo, hlt, fun hle => ?_, heq⟩
    by_contra hcon
    have := hall k hle (by omega)
    rw [hk.wants] at this
    cases this
  · refine .inr ⟨?_, heq⟩
    by_contra hcon
    have := hall k (by omega) hk.1
    rw [hk.wants] at this
    cases this

/-! ### What every step keeps -/

structure Inv (s : Hid) : Prop where
  cur_le : s.curReport ≤ s.num
  outstanding : s.outstanding = if s.busy then 1 else 0

theorem Inv.inReport (h : Inv s) : Inv s.inReport ∧ s.inReport.num = s.num := by
  by_cases hbusy : s.busy = true
  · rw [inReport_busy hbusy]
    exact ⟨h, rfl⟩
  · rw [Bool.not_eq_true] at hbusy
    obtain ⟨m, -, hle, -, ⟨hlt, -, heq⟩ | ⟨-, heq⟩⟩ := inReport_spec hbusy h.cur_le
    · rw [heq]
      have hout := h.outstanding
      rw [hbusy] at hout
      exact ⟨⟨hlt, by simp [start, hout]⟩, rfl⟩
    · rw [heq]
      exact ⟨⟨hle, h.outstanding⟩, rfl⟩

theorem Inv.mark (h : Inv s) (k : ℕ) : Inv (s.mark k) := ⟨h.cur_le, h.outstanding⟩

theorem Inv.reportChanged (h : Inv s) (k : ℕ) (posted : Bool) :
    Inv (s.reportChanged k posted) ∧ (s.reportChanged k posted).num = s.num := by
  unfold Hid.reportChanged
  dsimp only
  split_ifs
  · exact (h.mark k).inReport
  · exact ⟨h.mark k, rfl⟩

theorem Inv.calls (h : Inv s) (calls : List ℕ) : Inv (calls.foldl (fun (s : Hid) k => s.reportChanged k true) s) ∧
    (calls.foldl (fun (s : Hid) k => s.reportChanged k true) s).num = s.num := by
  induction calls generalizing s with
  | nil => exact ⟨h, rfl⟩
  | cons k calls ih =>
    obtain ⟨h₁, hnum⟩ := h.reportChanged k true
    obtain ⟨h₂, hnum'⟩ := ih h₁
    exact ⟨h₂, hnum'.trans hnum⟩

theorem Inv.age (h : Inv s) : Inv s.age := ⟨h.cur_le, h.outstanding⟩

theorem Inv.ticked (h : Inv s) (t : ℕ) : Inv { s with ticks := t } := ⟨h.cur_le, h.outstanding⟩

theorem Inv.released (h : Inv s) (hout : s.outstanding ≠ 0) : Inv { s with busy := false, outstanding := s.outstanding - 1 } := by
  refine ⟨h.cur_le, ?_⟩
  have := h.outstanding
  show s.outstanding - 1 = 0
  split_ifs at this
  · omega
  · exact absurd this hout

theorem timer4ms_eq (s : Hid) : s.timer4ms = s.age.inReport := by
  unfold timer4ms
  split_ifs with hbusy
  · exact (inReport_busy hbusy).symm
  · rfl

theorem Inv.step (h : Inv s) {a : Act} (hstep : Step s a s') : Inv s' ∧ s'.num = s.num := by
  cases hstep with
  | changed k posted hk => exact h.reportChanged k posted
  | timer =>
    rw [timer4ms_eq]
    exact (h.ticked _).age.inReport
  | finished calls hk hout =>
    obtain ⟨h₁, hnum⟩ := (h.released hout).calls calls
    obtain ⟨h₂, hnum'⟩ := h₁.inReport
    exact ⟨h₂, hnum'.trans hnum⟩

/-! ### A flag is cleared by a transfer -/

/-- From `s₀` nothing was sent and no flag cleared, or one report, and its flag. -/
inductive Cleared (s₀ s : Hid) : Prop
  | none (hst : s.started = s₀.started) (hk : ∀ k, (s₀.reports k).changed = true → (s.reports k).changed = true)
  | one (m : ℕ) (hst : s.started = s₀.started ++ [m]) (hbusy : s.busy = true)
      (hk : ∀ k, k ≠ m → (s₀.reports k).changed = true → (s.reports k).changed = true)

variable {s₀ : Hid}

theorem Cleared.keep (h : Cleared s₀ s) (hst : s'.started = s.started) (hbusy : s'.busy = s.busy)
    (hk : ∀ k, (s.reports k).changed = true → (s'.reports k).changed = true) : Cleared s₀ s' := by
  cases h with
  | none hst₀ hk₀ => exact .none (hst.trans hst₀) fun k h => hk k (hk₀ k h)
  | one m hst₀ hbusy₀ hk₀ => exact .one m (hst.trans hst₀) (hbusy.trans hbusy₀) fun k hne h => hk k (hk₀ k hne h)

theorem Cleared.inReport (h : Cleared s₀ s) (hcur : s.curReport ≤ s.num) : Cleared s₀ s.inReport := by
  by_cases hbusy : s.busy = true
  · rwa [inReport_busy hbusy]
  · rw [Bool.not_eq_true] at hbusy
    cases h with
    | one m hst hon hk =>
      rw [hbusy] at hon
      cases hon
    | none hst hk =>
      obtain ⟨m, -, -, -, ⟨-, -, heq⟩ | ⟨-, heq⟩⟩ := inReport_spec hbusy hcur
      · rw [heq]
        refine .one m (by simp [start, hst]) rfl fun k hne hch => ?_
        show (Function.update s.reports m _ k).changed = true
        rw [update_of_ne hne]
        exact hk k hch
      · rw [heq]
        exact .none hst hk

theorem mark_changed (s : Hid) (j k : ℕ) (h : (s.reports k).changed = true) : ((s.mark j).reports k).changed = true := by
  show (Function.update s.reports j _ k).changed = true
  by_cases hj : k = j
  · rw [hj, update_self]
  · rwa [update_of_ne hj]

theorem Cleared.reportChanged (h : Cleared s₀ s) (hinv : Inv s) (k : ℕ) (posted : Bool) :
    Cleared s₀ (s.reportChanged k posted) := by
  have hmark : Cleared s₀ (s.mark k) := h.keep rfl rfl (mark_changed s k)
  unfold Hid.reportChanged
  dsimp only
  split_ifs
  · exact hmark.inReport hinv.cur_le
  · exact hmark

theorem Cleared.calls (h : Cleared s₀ s) (hinv : Inv s) (calls : List ℕ) :
    Cleared s₀ (calls.foldl (fun (s : Hid) k => s.reportChanged k true) s) := by
  induction calls generalizing s with
  | nil => exact h
  | cons k calls ih => exact ih (h.reportChanged hinv k true) (hinv.reportChanged k true).1

theorem older_changed (r : HidReport) : (older r).changed = r.changed ∧ (older r).input = r.input := by
  unfold older
  split_ifs <;> exact ⟨rfl, rfl⟩

theorem age_changed (s : Hid) (k : ℕ) :
    (s.age.reports k).changed = (s.reports k).changed ∧ (s.age.reports k).input = (s.reports k).input := by
  unfold age
  dsimp only
  split_ifs
  · exact older_changed _
  · exact ⟨rfl, rfl⟩

/-- **One step.** -/
theorem cleared_step (h : Inv s) {a : Act} (hstep : Step s a s') : Cleared s s' := by
  have hself : Cleared s s := .none rfl fun _ h => h
  cases hstep with
  | changed k posted hk => exact hself.reportChanged h k posted
  | timer =>
    rw [timer4ms_eq]
    have hage : Cleared s (age { s with ticks := s.ticks + if s.outstanding = 0 then 1 else 0 }) :=
      hself.keep rfl rfl fun k hk => (age_changed s k).1.trans hk
    exact hage.inReport h.cur_le
  | finished calls hk hout =>
    have hrel := h.released hout
    have hcl : Cleared s { s with busy := false, outstanding := s.outstanding - 1 } := .none rfl fun _ h => h
    exact (hcl.calls hrel calls).inReport (hrel.calls calls).1.cur_le

/-! ### A report that waits -/

/-- Report `k` is changed and not sent, `new` were. The scan began at `c`, or has come round. Idle timer
events: `t` before, `d` more are allowed. -/
structure Waits (c k t d : ℕ) (new : List ℕ) (s : Hid) : Prop where
  changed : s.Changed k
  notMem : k ∉ new
  nodup : new.Nodup
  lt : ∀ j ∈ new, j < s.num
  place : (c ≤ s.curReport ∧ (c ≤ k → s.curReport ≤ k) ∧ ∀ j ∈ new, c ≤ j ∧ j < s.curReport) ∨
    (k < c ∧ s.curReport ≤ k ∧ ∀ j ∈ new, c ≤ j ∨ j < s.curReport)
  ticks : s.ticks ≤ t + 2 * new.length + (if s.num ≤ s.curReport then 1 else 0) + d

/-- Report `k` waits since `s₀`, or was sent, behind others that were sent once. -/
inductive Progress (s₀ : Hid) (k d : ℕ) (s : Hid) : Prop
  | waits (new : List ℕ) (hst : s.started = s₀.started ++ new) (h : Waits s₀.curReport k s₀.ticks d new s)
  | sent (pre post : List ℕ) (hst : s.started = s₀.started ++ (pre ++ k :: post)) (hk : k ∉ pre) (hpre : pre.Nodup)

variable {c t d : ℕ} {new : List ℕ}

theorem Waits.start {m : ℕ} (h : Waits c k t d new s) (hd : d ≤ 1) (hlo : s.front ≤ m) (hlt : m < s.num)
    (hle : s.front ≤ k → m ≤ k) (hne : m ≠ k) : Waits c k t 0 (new ++ [m]) (Hid.start { s with curReport := m }) := by
  have hknum := h.changed.1
  have hplace : ((c ≤ m + 1 ∧ (c ≤ k → m + 1 ≤ k) ∧ ∀ j ∈ new ++ [m], c ≤ j ∧ j < m + 1) ∨
      (k < c ∧ m + 1 ≤ k ∧ ∀ j ∈ new ++ [m], c ≤ j ∨ j < m + 1)) ∧ m ∉ new := by
    by_cases hend : s.num ≤ s.curReport
    · -- the scan goes round
      rw [front, if_pos hend] at hle
      have hmk : m < k := lt_of_le_of_ne (hle (Nat.zero_le k)) hne
      rcases h.place with ⟨-, hck, hall⟩ | ⟨-, hcur, -⟩
      · have hkc : k < c := by
          by_contra hcon
          have := hck (by omega)
          omega
        refine ⟨.inr ⟨hkc, hmk, fun j hj => ?_⟩, fun hmem => ?_⟩
        · rcases mem_append.mp hj with hold | hnew
          · exact .inl (hall j hold).1
          · rw [mem_singleton.mp hnew]
            omega
        · have := (hall m hmem).1
          omega
      · omega
    · rw [front, if_neg hend] at hle hlo
      rcases h.place with ⟨hc, hck, hall⟩ | ⟨hkc, hcur, hall⟩
      · refine ⟨.inl ⟨by omega, fun hckle => ?_, fun j hj => ?_⟩, fun hmem => ?_⟩
        · have := hle (hck hckle)
          omega
        · rcases mem_append.mp hj with hold | hnew
          · have := hall j hold
            omega
          · rw [mem_singleton.mp hnew]
            omega
        · have := (hall m hmem).2
          omega
      · have hmk := hle hcur
        refine ⟨.inr ⟨hkc, by omega, fun j hj => ?_⟩, fun hmem => ?_⟩
        · rcases mem_append.mp hj with hold | hnew
          · have := hall j hold
            omega
          · rw [mem_singleton.mp hnew]
            omega
        · have := hall m hmem
          omega
  refine ⟨⟨hknum, ?_⟩, ?_, ?_, ?_, hplace.1, ?_⟩
  · show (Function.update s.reports m _ k).input = true ∧ (Function.update s.reports m _ k).changed = true
    rw [update_of_ne hne.symm]
    exact h.changed.2
  · rw [mem_append, mem_singleton]
    exact not_or.mpr ⟨h.notMem, hne.symm⟩
  · rw [nodup_append]
    refine ⟨h.nodup, nodup_singleton m, fun a ha b hb heq => ?_⟩
    rw [heq, mem_singleton.mp hb] at ha
    exact hplace.2 ha
  · intro j hj
    rcases mem_append.mp hj with hold | hnew
    · exact h.lt j hold
    · rw [mem_singleton.mp hnew]
      exact hlt
  · have := h.ticks
    show s.ticks ≤ t + 2 * (new ++ [m]).length + _ + 0
    rw [length_append, length_singleton]
    split_ifs at this <;> omega

theorem Waits.end (h : Waits c k t d new s) (hd : d ≤ 1) (hk : k < s.front) :
    Waits c k t 0 new { s with curReport := s.num } := by
  have hcur : ¬ s.num ≤ s.curReport := by
    intro hend
    rw [front, if_pos hend] at hk
    omega
  rw [front, if_neg hcur] at hk
  have hticks := h.ticks
  rw [if_neg hcur] at hticks
  refine ⟨h.changed, h.notMem, h.nodup, h.lt, ?_, ?_⟩
  · rcases h.place with ⟨hc, hck, hall⟩ | ⟨-, hle, -⟩
    · refine .inl ⟨by show c ≤ s.num; omega, fun hckle => ?_, fun j hj => ⟨(hall j hj).1, h.lt j hj⟩⟩
      have := hck hckle
      omega
    · omega
  · show s.ticks ≤ t + 2 * new.length + (if s.num ≤ s.num then 1 else 0) + 0
    rw [if_pos le_rfl]
    omega

theorem Progress.keep {d' : ℕ} (h : Progress s₀ k d s) (hst : s'.started = s.started) (hnum : s'.num = s.num)
    (hcur : s'.curReport = s.curReport) (hticks : s'.ticks + d ≤ s.ticks + d') (hk : s.Changed k → s'.Changed k) :
    Progress s₀ k d' s' := by
  cases h with
  | sent pre post hst₀ hk₀ hpre => exact .sent pre post (hst.trans hst₀) hk₀ hpre
  | waits new hst₀ h =>
    refine .waits new (hst.trans hst₀) ⟨hk h.changed, h.notMem, h.nodup, ?_, ?_, ?_⟩
    · rw [hnum]
      exact h.lt
    · rw [hcur]
      exact h.place
    · have := h.ticks
      rw [hnum, hcur]
      omega

theorem Progress.inReport (h : Progress s₀ k d s) (hcur : s.curReport ≤ s.num) (hd : d ≤ if s.busy then 0 else 1) :
    Progress s₀ k 0 s.inReport := by
  by_cases hbusy : s.busy = true
  · rw [inReport_busy hbusy]
    rw [if_pos hbusy] at hd
    exact h.keep rfl rfl rfl (by omega) id
  · rw [if_neg hbusy] at hd
    rw [Bool.not_eq_true] at hbusy
    cases h with
    | sent pre post hst hk hpre =>
      obtain ⟨m, -, -, -, ⟨-, -, heq⟩ | ⟨-, heq⟩⟩ := inReport_spec hbusy hcur
      · rw [heq]
        exact .sent pre (post ++ [m]) (by simp [Hid.start, hst]) hk hpre
      · rw [heq]
        exact .sent pre post hst hk hpre
    | waits new hst h =>
      rcases inReport_changed hbusy hcur h.changed with ⟨m, hlo, hlt, hle, heq⟩ | ⟨hk, heq⟩
      · rw [heq]
        by_cases hmk : m = k
        · exact .sent new [] (by simp [Hid.start, hst, hmk]) h.notMem h.nodup
        · exact .waits (new ++ [m]) (by simp [Hid.start, hst]) (h.start hd hlo hlt hle hmk)
      · rw [heq]
        exact .waits new hst (h.end hd hk)

theorem mark_keeps {j : ℕ} (h : s.Changed k) : (s.mark j).Changed k := by
  refine ⟨h.1, ?_, mark_changed s j k h.2.2⟩
  show (Function.update s.reports j _ k).input = true
  by_cases hj : k = j
  · rw [hj, update_self, ← hj]
    exact h.2.1
  · rw [update_of_ne hj]
    exact h.2.1

theorem Progress.reportChanged (h : Progress s₀ k 0 s) (hinv : Inv s) (j : ℕ) (posted : Bool) :
    Progress s₀ k 0 (s.reportChanged j posted) := by
  have hmark : Progress s₀ k 0 (s.mark j) := h.keep rfl rfl rfl le_rfl mark_keeps
  unfold Hid.reportChanged
  dsimp only
  split_ifs
  · exact hmark.inReport hinv.cur_le (Nat.zero_le _)
  · exact hmark

theorem Progress.calls (h : Progress s₀ k 0 s) (hinv : Inv s) (calls : List ℕ) :
    Progress s₀ k 0 (calls.foldl (fun (s : Hid) k => s.reportChanged k true) s) := by
  induction calls generalizing s with
  | nil => exact h
  | cons j calls ih => exact ih (h.reportChanged hinv j true) (hinv.reportChanged j true).1

theorem age_keeps (h : s.Changed k) : s.age.Changed k :=
  ⟨h.1, (age_changed s k).2.trans h.2.1, (age_changed s k).1.trans h.2.2⟩

theorem Progress.step (h : Progress s₀ k 0 s) (hinv : Inv s) {a : Act} (hstep : Step s a s') : Progress s₀ k 0 s' := by
  cases hstep with
  | changed j posted hj => exact h.reportChanged hinv j posted
  | timer =>
    rw [timer4ms_eq]
    have htick : Progress s₀ k (if s.outstanding = 0 then 1 else 0)
        { s with ticks := s.ticks + if s.outstanding = 0 then 1 else 0 } := h.keep rfl rfl rfl (le_refl _) id
    have hage : Progress s₀ k (if s.outstanding = 0 then 1 else 0)
        (age { s with ticks := s.ticks + if s.outstanding = 0 then 1 else 0 }) :=
      htick.keep rfl rfl rfl le_rfl age_keeps
    refine hage.inReport hinv.cur_le ?_
    show (if s.outstanding = 0 then 1 else 0) ≤ if s.busy then 0 else 1
    rw [hinv.outstanding]
    cases s.busy <;> simp
  | finished calls hj hout =>
    have hrel := hinv.released hout
    have hp : Progress s₀ k 0 { s with busy := false, outstanding := s.outstanding - 1 } := h.keep rfl rfl rfl le_rfl id
    exact (hp.calls hrel calls).inReport (hrel.calls calls).1.cur_le (Nat.zero_le _)

/-! ### No two scans in a row find nothing -/

/-- With no transfer started since `s₀`, `n` timer events. -/
inductive Idle (s₀ : Hid) (k n : ℕ) (s : Hid) : Prop
  | started (new : List ℕ) (hne : new ≠ []) (hst : s.started = s₀.started ++ new)
  | idle (hst : s.started = s₀.started) (hbusy : s.busy = false) (hk : s.Changed k) (hn : n = 0 ∨ (n = 1 ∧ s.num ≤ s.curReport))

theorem Cleared.grows (h : Cleared s s') {new : List ℕ} (hst : s.started = s₀.started ++ new) (hne : new ≠ []) :
    ∃ new', new' ≠ [] ∧ s'.started = s₀.started ++ new' := by
  cases h with
  | none hst' => exact ⟨new, hne, hst'.trans hst⟩
  | one m hst' => exact ⟨new ++ [m], by simp, by rw [hst', hst, append_assoc]⟩

theorem Idle.inReport {n : ℕ} (hst : s.started = s₀.started) (hbusy : s.busy = false) (hk : s.Changed k)
    (hn : n = 0 ∨ (n = 1 ∧ s.num ≤ s.curReport)) (hcur : s.curReport ≤ s.num) :
    Idle s₀ k n s.inReport ∧ Idle s₀ k (n + 1) s.inReport := by
  rcases inReport_changed hbusy hcur hk with ⟨m, -, -, -, heq⟩ | ⟨hfront, heq⟩
  · have hst' : s.inReport.started = s₀.started ++ [m] := by
      rw [heq]
      simp [Hid.start, hst]
    exact ⟨.started [m] (by simp) hst', .started [m] (by simp) hst'⟩
  · have h0 : n = 0 := by
      rcases hn with h0 | ⟨-, hend⟩
      · exact h0
      · rw [front, if_pos hend] at hfront
        omega
    rw [heq, h0]
    exact ⟨.idle hst hbusy hk (.inl rfl), .idle hst hbusy hk (.inr ⟨rfl, le_rfl⟩)⟩

theorem Idle.step {n : ℕ} (h : Idle s₀ k n s) (hinv : Inv s) {a : Act} (hstep : Step s a s') :
    Idle s₀ k (n + if a = .timer then 1 else 0) s' := by
  cases h with
  | started new hne hst =>
    obtain ⟨new', hne', hst'⟩ := (cleared_step hinv hstep).grows hst hne
    exact .started new' hne' hst'
  | idle hst hbusy hk hn =>
    cases hstep with
    | changed j posted hj =>
      rw [if_neg (by simp)]
      unfold Hid.reportChanged
      dsimp only
      split_ifs
      · exact (Idle.inReport (s := s.mark j) hst hbusy (mark_keeps hk) hn hinv.cur_le).1
      · exact .idle hst hbusy (mark_keeps hk) hn
    | timer =>
      rw [if_pos rfl, timer4ms_eq]
      exact (Idle.inReport (s := age { s with ticks := s.ticks + if s.outstanding = 0 then 1 else 0 }) hst hbusy (age_keeps hk) hn
        hinv.cur_le).2
    | finished calls hj hout =>
      have := hinv.outstanding
      rw [hbusy] at this
      exact absurd this hout

/-! ### The schedule -/

theorem Fresh.inv (h : Fresh s) : Inv s := ⟨h.cur_le, by rw [h.outstanding, h.busy]; rfl⟩

/-- Fewer than all reports are sent before one that waits. -/
theorem Waits.length_lt (h : Waits c k t d new s) : new.length < s.num := by
  have hnodup : (k :: new).Nodup := nodup_cons.mpr ⟨h.notMem, h.nodup⟩
  have hsub : (k :: new) ⊆ List.range s.num := by
    intro j hj
    rw [List.mem_range]
    rcases mem_cons.mp hj with rfl | hj
    · exact h.changed.1
    · exact h.lt j hj
  have hle := (subperm_of_subset hnodup hsub).length_le
  rw [length_cons, length_range] at hle
  exact hle

theorem Progress.start (hk : s.Changed k) : Progress s k 0 s := by
  refine .waits [] (by simp) ⟨hk, by simp, nodup_nil, by simp, .inl ⟨le_rfl, id, by simp⟩, ?_⟩
  simp

theorem run_spec {l : List Act} (hrun : system.Run s l s') : ∀ {s₀ : Hid} {n : ℕ}, Inv s → Progress s₀ k 0 s →
    (Idle s₀ k n s ∨ s₀.outstanding ≠ 0) →
    Inv s' ∧ s'.num = s.num ∧ Progress s₀ k 0 s' ∧ (Idle s₀ k (n + l.count .timer) s' ∨ s₀.outstanding ≠ 0) := by
  induction hrun with
  | nil s => exact fun hinv hp hi => ⟨hinv, rfl, hp, hi⟩
  | @cons s s₁ s₂ a l hstep hrun ih =>
    intro s₀ n hinv hp hi
    obtain ⟨hinv₁, hnum⟩ := hinv.step hstep
    obtain ⟨h₁, h₂, h₃, h₄⟩ := ih hinv₁ (hp.step hinv hstep) (hi.imp_left fun hi => hi.step hinv hstep)
    refine ⟨h₁, h₂.trans hnum, h₃, h₄.imp_left fun hi => ?_⟩
    rw [List.count_cons]
    rw [show n + (l.count .timer + if a == .timer then 1 else 0) = n + (if a = .timer then 1 else 0) + l.count .timer by
      simp only [beq_iff_eq]
      omega]
    exact hi

/-- Two input reports, the second changed. -/
def twoReports : Hid where
  num := 2
  reports := fun k => ⟨true, UInt8.ofNat k, 0, 0, k = 1⟩
  curReport := 2
  curInId := 0
  busy := false
  outstanding := 0
  started := []
  ticks := 0

end Hid
end Usbd
end Vsf
