/-
# Events of HID reports

`vsfhid_process_input` takes a report apart by the layout of its id. A field is reported if it is
not what it was in the last report, or, when relative, if it is not 0; at last the end, if anything
was. `buf_get_value` has a byte for the position, so a field that ends behind bit 256 is read at the
wrong place.
-/
import Mathlib
import Vsf.Buffer.BitField
import Vsf.Input.Vsfhid

namespace Vsf
namespace Vsfhid

open BitField List Option

/-- `HID_USAGE_IS_VAR`. -/
def Usage.isVar (u : Usage) : Bool := u.dataFlag &&& 2 != 0

/-- `HID_USAGE_IS_REL`. -/
def Usage.isRel (u : Usage) : Bool := u.dataFlag &&& 4 != 0

/-- `struct vsfhid_event_t`. -/
structure Event where
  usagePage : UInt16
  usageId : UInt16
  preValue : UInt32
  curValue : UInt32
  usage : Usage

/-- The calls of `vsfhid.report`, the one with NULL last. -/
inductive Note
  | event (genericUsage : UInt16) (e : Event)
  | over (genericUsage : UInt16)

/-- `struct vsfhid_dev_t`; `values k` is the `value` of the report at `k`. -/
structure Device where
  hasId : Bool
  reports : List Report
  values : ℕ → Option (ℕ → UInt8)

/-- A call: the buffer, its length, the memory of `vsf_bufmgr_malloc` if any, and what is behind it. -/
structure Input where
  buf : ℕ → UInt8
  len : ℕ
  memory : Bool
  heap : ℕ → UInt8

/-! ### The fields of a report -/

namespace Usage

/-- How often the loop over the fields is gone through. -/
def turns (u : Usage) : ℕ := u.reportCount.toInt32.toInt.toNat

/-- `bit_offset + i * report_size`. -/
def offset (u : Usage) (i : ℕ) : UInt32 := u.bitOffset + UInt32.ofNat i * u.reportSize

/-- Field `i`, as the code reads it. -/
def read (u : Usage) (buf : ℕ → UInt8) (i : ℕ) : UInt32 := bufGetValue buf (u.offset i).toUInt8 u.reportSize.toUInt8

/-- The bits of field `i`. -/
def bitsOf (u : Usage) (buf : ℕ → UInt8) (i : ℕ) : UInt32 :=
  UInt32.ofNat (field buf (u.bitOffset.toNat + i * u.reportSize.toNat) u.reportSize.toNat)

def event (u : Usage) (i : ℕ) (cur pre : UInt32) : Event :=
  { usagePage := u.usagePage
    usageId :=
      if u.isVar then u.usageMin.toUInt16 + UInt16.ofNat i else if cur ≠ 0 then cur.toUInt16 else pre.toUInt16
    preValue := pre
    curValue := cur
    usage := u }

/-- The event of field `i`, if there is one. -/
def note (u : Usage) (i : ℕ) (cur pre : UInt32) : Option Event :=
  if cur ≠ (if u.isRel then 0 else pre) then some (u.event i cur pre) else none

end Usage

/-- The events of the fields in turn, with the values of this report and the last. -/
def Report.events (r : Report) (cur pre : Usage → ℕ → UInt32) : List Event :=
  r.usages.flatMap fun u => (List.range u.turns).filterMap fun i => u.note i (cur u i) (pre u i)

/-- The calls for these events. -/
def Report.notes (r : Report) (es : List Event) : List Note :=
  match es with
  | [] => []
  | _ :: _ => es.map (.event r.genericUsage) ++ [.over r.genericUsage]

/-- The report of an id, with its place. -/
def lookup (rs : List Report) (id : Int16) : Option (Report × ℕ) :=
  rs.zipIdx.find? fun p => p.1.type == itemInput && p.1.id == id

namespace Device

/-- The id of a report. -/
def id (d : Device) (x : Input) : Int16 := if d.hasId then (x.buf 0).toUInt16.toInt16 else -1

/-- What `buf` is behind the id. -/
def data (d : Device) (x : Input) : ℕ → UInt8 := if d.hasId then fun i => x.buf (i + 1) else x.buf

/-- `report->value`, which is made if there is none. -/
def value (d : Device) (x : Input) (k : ℕ) : ℕ → UInt8 := (d.values k).getD fun i => if i < x.len then 0 else x.heap i

/-- `vsfhid_process_input`, and its calls of `vsfhid.report`. `memcpy` copies one byte more than there is
behind an id. -/
def processInput (d : Device) (x : Input) : Device × List Note :=
  match lookup d.reports (d.id x) with
  | none => (d, [])
  | some (r, k) =>
    if (d.values k).isNone && !x.memory then (d, [])
    else
      ({ d with values := Function.update d.values k (some fun i => if i < x.len then d.data x i else d.value x k i) },
        r.notes (r.events (fun u i => u.read (d.data x) i) fun u i => u.read (d.value x k) i))

/-- The calls for one report after the other. -/
def run : Device → List Input → List (List Note)
  | _, [] => []
  | d, x :: xs => (d.processInput x).2 :: run (d.processInput x).1 xs

/-! ### What is to be reported -/

/-- The last report of an id, of those before (the last one first). Nothing is 0. -/
def last (d : Device) (earlier : List Input) (id : Int16) : ℕ → UInt8 :=
  ((earlier.find? fun y => d.id y == id).map d.data).getD fun _ => 0

def expected (d : Device) (earlier : List Input) (x : Input) : List Note :=
  match lookup d.reports (d.id x) with
  | none => []
  | some (r, _) =>
    r.notes (r.events (fun u i => u.bitsOf (d.data x) i) fun u i => u.bitsOf (d.last earlier (d.id x)) i)

def expectedRun (d : Device) : List Input → List Input → List (List Note)
  | _, [] => []
  | earlier, x :: xs => d.expected earlier x :: expectedRun d (x :: earlier) xs

end Device

/-- The bytes of a report. -/
def Report.bytes (r : Report) : ℕ := (r.bitlen.toNat + 7) / 8

/-- All fields are in the report, and none is wider than 32 bits. -/
def Report.Inside (r : Report) : Prop :=
  ∀ u ∈ r.usages, u.reportSize.toNat ≤ 32 ∧
    ∀ i < u.turns, u.bitOffset.toNat + i * u.reportSize.toNat + u.reportSize.toNat ≤ r.bitlen.toNat

/-- A report of the declared length, and memory for it. -/
def Device.Proper (d : Device) (x : Input) : Prop :=
  x.memory = true ∧ ∀ r k, lookup d.reports (d.id x) = some (r, k) → x.len = r.bytes + if d.hasId then 1 else 0

/-- The fields that have bits end in the first 256. -/
def Report.Near (r : Report) : Prop :=
  ∀ u ∈ r.usages, ∀ i < u.turns, 0 < u.reportSize.toNat →
    u.bitOffset.toNat + i * u.reportSize.toNat + u.reportSize.toNat ≤ 256

/-! ### Fields in the first 256 bits -/

theorem Usage.toUInt8_offset (u : Usage) (i : ℕ) :
    (u.offset i).toUInt8 = UInt8.ofNat (u.bitOffset.toNat + i * u.reportSize.toNat) := by
  have hsum : u.offset i = UInt32.ofNat (u.bitOffset.toNat + i * u.reportSize.toNat) := by
    rw [UInt32.ofNat_add, UInt32.ofNat_mul, UInt32.ofNat_toNat, UInt32.ofNat_toNat, offset]
  rw [hsum, UInt32.toUInt8_ofNat']

variable {u : Usage} {buf : ℕ → UInt8} {i k : ℕ} {r : Report} {cur pre : Usage → ℕ → UInt32} {rs : List Report}
  {id : Int16}

theorem Usage.read_eq (hw : u.reportSize.toNat ≤ 32)
    (hend : 0 < u.reportSize.toNat → u.bitOffset.toNat + i * u.reportSize.toNat + u.reportSize.toNat ≤ 256) :
    u.read buf i = u.bitsOf buf i := by
  have hsize : u.reportSize.toUInt8 = UInt8.ofNat u.reportSize.toNat := by
    rw [← UInt32.toUInt8_ofNat', UInt32.ofNat_toNat]
  rcases eq_zero_or_pos u.reportSize.toNat with hz | hpos
  · rw [read, bitsOf, hsize, hz]
    rfl
  · have hval : (bufGetValue buf _ _).toNat = field buf _ _ := bufGetValue_eq hw (hend hpos)
    rw [read, bitsOf, ← hval, UInt32.ofNat_toNat, toUInt8_offset, hsize]

theorem Usage.bitsOf_congr {buf' : ℕ → UInt8} {bytes : ℕ}
    (h : u.bitOffset.toNat + i * u.reportSize.toNat + u.reportSize.toNat ≤ 8 * bytes)
    (heq : ∀ n < bytes, buf n = buf' n) : u.bitsOf buf i = u.bitsOf buf' i := by
  rw [bitsOf, bitsOf, field_congr h heq]

theorem Report.events_congr {cur' pre' : Usage → ℕ → UInt32}
    (h : ∀ u ∈ r.usages, ∀ i < u.turns, cur u i = cur' u i ∧ pre u i = pre' u i) : r.events cur pre = r.events cur' pre' := by
  unfold events
  apply flatMap_congr
  intro u hu
  apply filterMap_congr
  intro i hi
  obtain ⟨hc, hp⟩ := h u hu i (List.mem_range.mp hi)
  rw [hc, hp]

theorem Report.le_bytes (r : Report) : r.bitlen.toNat ≤ 8 * r.bytes := by
  unfold bytes
  omega

/-! ### The reports that are kept -/

theorem lookup_spec (h : lookup rs id = some (r, k)) : r.id = id ∧ rs[k]? = some r := by
  have hp := find?_some h
  have hm := mem_of_find?_eq_some h
  simp only [Bool.and_eq_true, beq_iff_eq] at hp
  exact ⟨hp.2, mem_zipIdx_iff_getElem?.mp hm⟩

theorem lookup_inj {id' : Int16} {r' : Report} (h : lookup rs id = some (r, k))
    (h' : lookup rs id' = some (r', k)) : id = id' := by
  obtain ⟨hid, hr⟩ := lookup_spec h
  obtain ⟨hid', hr'⟩ := lookup_spec h'
  rw [hr] at hr'
  rw [← hid, ← hid', some.inj hr']

namespace Device

/-- Each report of the list keeps the last report of its id. -/
def Held (d : Device) (earlier : List Input) : Prop :=
  ∀ id r k, lookup d.reports id = some (r, k) →
    match d.values k with
    | none => earlier.find? (fun y => d.id y == id) = none
    | some v => ∀ i < r.bytes, v i = d.last earlier id i

variable {d : Device} {earlier : List Input} {x : Input}

theorem last_other (h : d.id x ≠ id) : d.last (x :: earlier) id = d.last earlier id := by
  rw [last, find?_cons_of_neg (by simpa using h), last]

theorem last_same : d.last (x :: earlier) (d.id x) = d.data x := by
  rw [last, find?_cons_of_pos (by simp)]
  rfl

theorem Held.value (h : d.Held earlier) (hl : lookup d.reports id = some (r, k))
    (hlen : r.bytes ≤ x.len) : ∀ i < r.bytes, d.value x k i = d.last earlier id i := by
  intro i hi
  have hk := h id r k hl
  cases hv : d.values k with
  | none =>
    rw [hv] at hk
    rw [Device.value, hv, last, hk]
    exact if_pos (by omega)
  | some v =>
    rw [hv] at hk
    rw [Device.value, hv]
    exact hk i hi

theorem bytes_le (hx : d.Proper x) (hl : lookup d.reports (d.id x) = some (r, k)) : r.bytes ≤ x.len := by
  rw [hx.2 r k hl]
  exact Nat.le_add_right ..

theorem processInput_held (h : d.Held earlier) (hx : d.Proper x) :
    ∃ vs, (d.processInput x).1 = { d with values := vs } ∧ Held { d with values := vs } (x :: earlier) := by
  unfold processInput
  cases hl : lookup d.reports (d.id x) with
  | none =>
    refine ⟨d.values, rfl, ?_⟩
    intro id r k hid
    -- the report was not for this id
    have hne : d.id x ≠ id := by
      rintro rfl
      rw [show lookup d.reports (d.id x) = some (r, k) from hid] at hl
      cases hl
    have hold := h id r k hid
    show match d.values k with
      | none => (x :: earlier).find? (fun y => d.id y == id) = none
      | some v => ∀ i < r.bytes, v i = d.last (x :: earlier) id i
    cases hv : d.values k with
    | none =>
      rw [hv] at hold
      rw [find?_cons_of_neg (by simpa using hne)]
      exact hold
    | some v =>
      rw [hv] at hold
      rw [last_other hne]
      exact hold
  | some p =>
    obtain ⟨r₀, k₀⟩ := p
    simp only [hx.1, Bool.not_true, Bool.and_false, Bool.false_eq_true, if_false]
    refine ⟨_, rfl, ?_⟩
    intro id r k hid
    have hid' : lookup d.reports id = some (r, k) := hid
    by_cases hk : k = k₀
    · subst hk
      obtain rfl := lookup_inj hid' hl
      obtain rfl : r = r₀ := congrArg Prod.fst (some.inj (hid'.symm.trans hl))
      simp only [Function.update_self]
      intro i hi
      have hlen := bytes_le hx hl
      rw [if_pos (by omega)]
      exact (congrFun last_same i).symm
    · have hne : d.id x ≠ id := by
        rintro rfl
        exact hk (congrArg Prod.snd (some.inj (hid'.symm.trans hl)))
      have hold := h id r k hid'
      simp only [Function.update_of_ne hk]
      cases hv : d.values k with
      | none =>
        rw [hv] at hold
        show (x :: earlier).find? (fun y => d.id y == id) = none
        rw [find?_cons_of_neg (by simpa using hne)]
        exact hold
      | some v =>
        rw [hv] at hold
        show ∀ i < r.bytes, v i = d.last (x :: earlier) id i
        rw [last_other hne]
        exact hold

theorem processInput_expected (h : d.Held earlier) (hx : d.Proper x)
    (hin : ∀ r k, lookup d.reports (d.id x) = some (r, k) → r.Inside ∧ r.Near) :
    (d.processInput x).2 = d.expected earlier x := by
  unfold processInput expected
  cases hl : lookup d.reports (d.id x) with
  | none => rfl
  | some p =>
    obtain ⟨r, k⟩ := p
    obtain ⟨hinside, hnear⟩ := hin r k hl
    simp only [hx.1, Bool.not_true, Bool.and_false, Bool.false_eq_true, if_false]
    congr 1
    apply Report.events_congr
    intro u hu i hi
    obtain ⟨hw, hend⟩ := hinside u hu
    have hread : ∀ buf, u.read buf i = u.bitsOf buf i := fun buf => Usage.read_eq hw (hnear u hu i hi)
    refine ⟨hread _, ?_⟩
    rw [hread]
    exact Usage.bitsOf_congr ((hend i hi).trans r.le_bytes) (h.value hl (bytes_le hx hl))

/-- **The calls are the expected ones**, if the fields are near. -/
theorem run_expected (hin : ∀ x r k, lookup d.reports (d.id x) = some (r, k) → r.Inside ∧ r.Near) :
    ∀ (xs : List Input) (vs : ℕ → Option (ℕ → UInt8)) (earlier : List Input), Held { d with values := vs } earlier →
      (∀ x ∈ xs, d.Proper x) → run { d with values := vs } xs = d.expectedRun earlier xs
  | [], _, _, _, _ => rfl
  | x :: xs, vs, earlier, h, hxs => by
    have hx : Proper { d with values := vs } x := hxs x mem_cons_self
    obtain ⟨vs', hd', hheld⟩ := processInput_held h hx
    have hfirst := processInput_expected h hx (hin x)
    rw [run, expectedRun, hd', run_expected hin xs vs' (x :: earlier) hheld fun y hy => hxs y (mem_cons_of_mem _ hy), hfirst]
    rfl

end Device

/-! ### A field further on -/

theorem Usage.note_zero (u : Usage) (i : ℕ) : u.note i 0 0 = none := by
  unfold note
  split_ifs <;> simp_all

theorem Report.events_zero (h : ∀ u ∈ r.usages, ∀ i, cur u i = 0 ∧ pre u i = 0) : r.events cur pre = [] := by
  refine flatMap_eq_nil_iff.mpr fun u hu => filterMap_eq_nil_iff.mpr fun i _ => ?_
  rw [(h u hu i).1, (h u hu i).2, Usage.note_zero]

theorem Report.events_ne_nil (hu : u ∈ r.usages)
    (hi : i < u.turns) (hc : cur u i ≠ 0) (hp : pre u i = 0) : r.events cur pre ≠ [] := by
  intro hnil
  have hnone := filterMap_eq_nil_iff.mp (flatMap_eq_nil_iff.mp hnil u hu) i (List.mem_range.mpr hi)
  rw [Usage.note, hp, ite_self, if_pos hc] at hnone
  cases hnone

theorem Report.notes_eq_nil {es : List Event} : r.notes es = [] ↔ es = [] := by
  cases es <;> simp [notes]

/-- A report whose only bit set is bit `n`. -/
def lone (n : ℕ) : ℕ → UInt8 := fun i => if i = n / 8 then UInt8.ofNat (2 ^ (n % 8)) else 0

theorem bit_lone (n : ℕ) : bit (lone n) n = true := by
  have hlt : 2 ^ (n % 8) < 2 ^ 8 := Nat.pow_lt_pow_right (by omega) (Nat.mod_lt n (by omega))
  rw [bit, lone, if_pos rfl, UInt8.toNat_ofNat', Nat.mod_eq_of_lt hlt, Nat.testBit_two_pow_self]

namespace Device

variable {d : Device}

/-- The same bits as a report of the id that `x` has. -/
def loneInput (d : Device) (x : Input) (r : Report) (n : ℕ) : Input :=
  { buf := if d.hasId then fun i => if i = 0 then x.buf 0 else lone n (i - 1) else lone n
    len := r.bytes + if d.hasId then 1 else 0
    memory := true
    heap := fun _ => 0 }

theorem loneInput_id (x : Input) (r : Report) (n : ℕ) : d.id (d.loneInput x r n) = d.id x := by
  unfold id loneInput
  split_ifs <;> rfl

theorem loneInput_data (x : Input) (r : Report) (n : ℕ) : d.data (d.loneInput x r n) = lone n := by
  unfold data loneInput
  split_ifs
  · funext i
    show (if i + 1 = 0 then x.buf 0 else lone n (i + 1 - 1)) = lone n i
    rw [if_neg (Nat.succ_ne_zero i), Nat.add_sub_cancel]
  · rfl

theorem loneInput_run (hnew : ∀ k, d.values k = none) {x : Input} {r : Report} {k n : ℕ}
    (hl : lookup d.reports (d.id x) = some (r, k)) (hn : 256 ≤ n) (hlen : n < 8 * r.bytes) :
    d.run [d.loneInput x r n] = [[]] := by
  have hzero : ∀ m < 32, lone n m = 0 := fun m hm => if_neg (by omega)
  have hvalue : ∀ m < 32, d.value (d.loneInput x r n) k m = 0 := by
    intro m hm
    rw [value, hnew]
    refine if_pos ?_
    show m < r.bytes + _
    omega
  have hread : ∀ (u : Usage) (i : ℕ), u.read (lone n) i = 0 ∧ u.read (d.value (d.loneInput x r n) k) i = 0 :=
    fun _ _ => ⟨bufGetValue_zero hzero _ _, bufGetValue_zero hvalue _ _⟩
  have hmem : (d.loneInput x r n).memory = true := rfl
  rw [run, run, processInput, loneInput_id, hl, loneInput_data]
  simp only [hmem, Bool.not_true, Bool.and_false, Bool.false_eq_true, if_false]
  rw [Report.events_zero fun u _ i => hread u i]
  rfl

theorem loneInput_expected {x : Input} (hl : lookup d.reports (d.id x) = some (r, k)) {u : Usage}
    (hu : u ∈ r.usages) {i : ℕ} (hi : i < u.turns) (hw : u.reportSize.toNat ≤ 32) (hpos : 0 < u.reportSize.toNat) :
    d.expectedRun [] [d.loneInput x r (u.bitOffset.toNat + i * u.reportSize.toNat + (u.reportSize.toNat - 1))] ≠ [[]] := by
  set n := u.bitOffset.toNat + i * u.reportSize.toNat + (u.reportSize.toNat - 1) with hn
  have hcur : u.bitsOf (lone n) i ≠ 0 := by
    intro hz
    have hlt : field (lone n) (u.bitOffset.toNat + i * u.reportSize.toNat) u.reportSize.toNat < 2 ^ 32 :=
      (Nat.ofBits_lt_two_pow _).trans_le (Nat.pow_le_pow_right (by omega) hw)
    have hne := field_ne_zero (show u.reportSize.toNat - 1 < u.reportSize.toNat by omega) (bit_lone n)
    rw [← UInt32.toNat_inj, Usage.bitsOf, UInt32.toNat_ofNat', Nat.mod_eq_of_lt hlt] at hz
    exact hne hz
  have hpre : u.bitsOf (d.last [] (d.id x)) i = 0 := by
    have hz : field (d.last [] (d.id x)) (u.bitOffset.toNat + i * u.reportSize.toNat) u.reportSize.toNat = 0 :=
      field_zero (Nat.le_mul_of_pos_left _ (by omega)) fun _ _ => rfl
    rw [Usage.bitsOf, hz]
    rfl
  have hne : r.events (fun u i => u.bitsOf (lone n) i) (fun u i => u.bitsOf (d.last [] (d.id x)) i) ≠ [] :=
    Report.events_ne_nil hu hi hcur hpre
  rw [expectedRun, expectedRun, expected, loneInput_id, hl, loneInput_data]
  intro heq
  exact hne (Report.notes_eq_nil.mp (head_eq_of_cons_eq heq))

/-- A field that ends behind bit 256 is not seen, if only its last bit is set. -/
theorem near_of_right (hnew : ∀ k, d.values k = none) {x : Input} {r : Report} {k : ℕ}
    (hl : lookup d.reports (d.id x) = some (r, k)) (hin : r.Inside)
    (hright : ∀ xs, (∀ x ∈ xs, d.Proper x) → d.run xs = d.expectedRun [] xs) : r.Near := by
  intro u hu i hi hpos
  by_contra hfar
  obtain ⟨hw, hend⟩ := hin u hu
  have hend := hend i hi
  have hbytes := r.le_bytes
  have hrun := loneInput_run (n := u.bitOffset.toNat + i * u.reportSize.toNat + (u.reportSize.toNat - 1)) hnew hl
    (by omega) (by omega)
  have hproper : d.Proper (d.loneInput x r (u.bitOffset.toNat + i * u.reportSize.toNat + (u.reportSize.toNat - 1))) := by
    refine ⟨rfl, ?_⟩
    rw [loneInput_id]
    intro r' k' hl'
    rw [hl] at hl'
    obtain rfl : r = r' := congrArg Prod.fst (some.inj hl')
    rfl
  have hone := hright [_] (by simpa using hproper)
  exact loneInput_expected hl hu hi hw hpos (hone ▸ hrun)

/-- **The events of the reports** of a device just parsed, with fields in the reports and of 32 bits at
most, are right for every sequence exactly if fields end in the first 256 bits. -/
theorem events_right (hnew : ∀ k, d.values k = none)
    (hin : ∀ x r k, lookup d.reports (d.id x) = some (r, k) → r.Inside) :
    (∀ xs, (∀ x ∈ xs, d.Proper x) → d.run xs = d.expectedRun [] xs) ↔
      ∀ x r k, lookup d.reports (d.id x) = some (r, k) → r.Near := by
  constructor
  · intro hright x r k hl
    exact near_of_right hnew hl (hin x r k hl) hright
  · intro hnear xs hxs
    refine run_expected (fun x r k hl => ⟨hin x r k hl, hnear x r k hl⟩) xs d.values [] ?_ hxs
    intro id r k _
    show match d.values k with
      | none => _
      | some v => _
    rw [hnew]
    rfl

/-- A device whose reports are one field of eight bits at `offset`. -/
def single (offset bitlen : ℕ) : Device :=
  { hasId := false
    reports :=
      [{ type := itemInput, id := -1, bitlen := UInt16.ofNat bitlen, genericUsage := 2
         usages :=
          [{ usagePage := 1, usageMin := 0x30, usageMax := 0x30, logicalMin := 0, logicalMax := 127
             bitOffset := UInt32.ofNat offset, bitLength := 8, reportSize := 8, reportCount := 1, dataFlag := 2 }]
         total := bitlen }]
    values := fun _ => none }

theorem mem_single {offset bitlen : ℕ}
    (h : lookup (single offset bitlen).reports id = some (r, k)) : r ∈ (single offset bitlen).reports :=
  mem_of_getElem? (lookup_spec h).2

/-- A report of one byte. -/
def byteInput (v : UInt8) : Input := { buf := fun _ => v, len := 1, memory := true, heap := fun _ => 0 }

theorem events_right_single : (single 0 8).run [byteInput 5, byteInput 5, byteInput 0] =
    (single 0 8).expectedRun [] [byteInput 5, byteInput 5, byteInput 0] := by
  have hin : ∀ x r k, lookup (single 0 8).reports ((single 0 8).id x) = some (r, k) → r.Inside := by
    intro x r k hl
    obtain rfl := mem_singleton.mp (mem_single hl)
    unfold Report.Inside
    decide
  refine (events_right (fun _ => rfl) hin).mpr ?_ _ ?_
  · intro x r k hl
    obtain rfl := mem_singleton.mp (mem_single hl)
    unfold Report.Near
    decide
  · intro x hx
    have hbyte : ∃ v, x = byteInput v := by
      simp only [mem_cons, not_mem_nil, or_false] at hx
      rcases hx with rfl | rfl | rfl <;> exact ⟨_, rfl⟩
    obtain ⟨v, rfl⟩ := hbyte
    refine ⟨rfl, ?_⟩
    intro r k hl
    obtain rfl := mem_singleton.mp (mem_single hl)
    rfl

/-- Only the last byte of a report of 33 is not 0, and no field is reported. -/
theorem events_far : ¬∀ xs, (∀ x ∈ xs, (single 256 264).Proper x) →
    (single 256 264).run xs = (single 256 264).expectedRun [] xs := by
  intro hall
  let x : Input := { buf := fun i => if i = 32 then 1 else 0, len := 33, memory := true, heap := fun _ => 0 }
  have hproper : (single 256 264).Proper x := by
    refine ⟨rfl, ?_⟩
    intro r k hl
    obtain rfl := mem_singleton.mp (mem_single hl)
    rfl
  have hone := hall [x] (by simpa using hproper)
  have hcode : ((single 256 264).run [x]).map List.length = [0] := by decide +kernel
  have hspec : ((single 256 264).expectedRun [] [x]).map List.length = [2] := by decide +kernel
  rw [hone, hspec] at hcode
  cases hcode

end Device

end Vsfhid
end Vsf
