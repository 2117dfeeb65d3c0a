/-
# The layout of HID reports

`vsfhid_parse_report` walks over a report descriptor item by item; an INPUT or OUTPUT item turns the
usages into usages of a report. A list makes one usage after another: INPUT one for each field,
whatever the number of usages, OUTPUT shares the fields out, and keeps the share in `value`, where
the flags were. A long item is skipped as if it had one byte in front of its data and not three.
-/
import Mathlib
import Vsf.Lib.Tiling

namespace Vsf
namespace Vsfhid

/-- `HID_ITEM_INPUT` and the others that follow. -/
def itemInput : UInt8 := 0x80
def itemOutput : UInt8 := 0x90
def itemFeature : UInt8 := 0xB0
def itemCollection : UInt8 := 0xA0
def itemEndCollection : UInt8 := 0xC0
def itemUsagePage : UInt8 := 0x04
def itemLogiMini : UInt8 := 0x14
def itemLogiMaxi : UInt8 := 0x24
def itemReportSize : UInt8 := 0x74
def itemReportId : UInt8 := 0x84
def itemReportCount : UInt8 := 0x94
def itemUsage : UInt8 := 0x08
def itemUsageMin : UInt8 := 0x18
def itemUsageMax : UInt8 := 0x28

/-- `HID_LONG_ITEM`. -/
def longItem (x : UInt8) : Bool := x == 0xFE

/-- `HID_ITEM_SIZE`. -/
def itemSize (x : UInt8) : ℕ := if x &&& 3 = 3 then 4 else (x &&& 3).toNat

/-- `HID_ITEM_TAG`. -/
def itemTag (x : UInt8) : UInt8 := x &&& 0xFC

/-- `struct vsfhid_usage_t`. A field of type `int32_t` is kept as its 32 bits. -/
structure Usage where
  usagePage : UInt16
  usageMin : UInt8
  usageMax : UInt8
  logicalMin : UInt32
  logicalMax : UInt32
  bitOffset : UInt32
  bitLength : UInt32
  reportSize : UInt32
  reportCount : UInt32
  dataFlag : UInt32

/-- `struct vsfhid_report_t`; `total` is the history, `report_size * report_count` of all items laid out. -/
structure Report where
  type : UInt8
  id : Int16
  bitlen : UInt16
  genericUsage : UInt16
  usages : List Usage
  total : ℕ

/-- `struct hid_desc_t`. An item's numbers are unsigned, an `int` is its 32 bits, -1 is `unset`. -/
structure Desc where
  reportId : Int32
  collection : Int32
  reportSize : UInt32
  reportCount : UInt32
  usagePage : UInt32
  usageNum : ℕ
  logicalMin : UInt32
  logicalMax : UInt32
  usageMin : UInt32
  usageMax : UInt32
  genericUsage : UInt32
  usages : ℕ → UInt32

/-- -1. -/
def unset : UInt32 := 0xFFFFFFFF

/-- What is read unset: an item's `value` and `ival`, the memory behind `usages`, `err`. -/
structure Junk where
  value : ℕ → UInt32
  ival : ℕ → UInt32
  behind : ℕ → ℕ → UInt32
  err : Bool

inductive Err
  | fail
  | notEnoughResources

/-- An INPUT or OUTPUT item as it was met: the description, the first usage set for it, its report, its data
and flags. -/
structure Main where
  type : UInt8
  desc : Desc
  base : ℕ
  report : Report
  behind : ℕ → UInt32
  value : UInt32
  flags : UInt32

/-- What is remembered of an item. -/
inductive Item
  | main (m : Main)
  | long (size skipped : ℕ)

/-- The locals of `vsfhid_parse_report`, and `report_list` and `report_has_id`; `base` and `log` are the
history. -/
structure Parser where
  desc : Desc
  reports : List Report
  hasId : Bool
  pos : ℕ
  err : Bool
  base : ℕ
  log : List Item

/-! ### The items -/

/-- The data of an item of one, two or four bytes. -/
def data (buf : ℕ → UInt8) (pos : ℕ) : ℕ → Option UInt32
  | 1 => some (buf pos).toUInt32
  | 2 => some ((buf pos).toUInt32 ||| (buf (pos + 1)).toUInt32 <<< 8)
  | 4 => some ((buf pos).toUInt32 ||| (buf (pos + 1)).toUInt32 <<< 8 ||| (buf (pos + 2)).toUInt32 <<< 16 |||
      (buf (pos + 3)).toUInt32 <<< 24)
  | _ => none

/-- The same with the sign, for `ival`. -/
def signed (size : ℕ) (v : UInt32) : UInt32 :=
  if size = 1 then v.toUInt8.toInt8.toInt32.toUInt32
  else if size = 2 then v.toUInt16.toInt16.toInt32.toUInt32
  else v

/-- `(desc->report_id >= 0) ? desc->report_id : -1`, in 16 bits. -/
def idOf (reportId : Int32) : Int16 := if 0 ≤ reportId then reportId.toInt16 else -1

/-- The report of a type and an id. -/
def Report.named (type : UInt8) (reportId : Int32) (r : Report) : Bool := r.type == type && r.id.toInt32 == reportId

def fresh (d : Desc) (type : UInt8) : Report :=
  { type := type, id := idOf d.reportId, bitlen := 0, genericUsage := d.genericUsage.toUInt16, usages := [], total := 0 }

/-- `vsfhid_get_report`: the report, and what is in front and behind. -/
def getReport (rs : List Report) (d : Desc) (type : UInt8) : List Report × Report × List Report :=
  match rs.span fun r => !r.named type d.reportId with
  | (pre, r :: post) => (pre, r, post)
  | (_, []) => ([], fresh d type, rs)

namespace Main

/-- `report_size * report_count`. -/
def bits (m : Main) : UInt32 := m.desc.reportSize * m.desc.reportCount

/-- The same without a bound. -/
def width (m : Main) : ℕ := m.desc.reportSize.toNat * m.desc.reportCount.toNat

/-- A range of usages is set. -/
def Ranged (m : Main) : Prop := m.desc.usageMin ≠ unset ∧ m.desc.usageMax ≠ unset

instance (m : Main) : Decidable m.Ranged := inferInstanceAs (Decidable (_ ∧ _))

/-- `desc->usages[i]`. -/
def usage (m : Main) (i : ℕ) : UInt32 := if i < 16 then m.desc.usages i else m.behind i

/-- The usage of a range. -/
def rangeUsage (m : Main) : Usage :=
  { usagePage := m.desc.usagePage.toUInt16, usageMin := m.desc.usageMin.toUInt8, usageMax := m.desc.usageMax.toUInt8
    logicalMin := m.desc.logicalMin, logicalMax := m.desc.logicalMax
    bitOffset := m.report.bitlen.toUInt32, bitLength := m.bits
    reportSize := m.desc.reportSize, reportCount := m.desc.reportCount, dataFlag := m.value }

/-- The usage made for field `i` by INPUT. -/
def inputUsage (m : Main) (i : ℕ) : Usage :=
  { usagePage := m.desc.usagePage.toUInt16, usageMin := (m.usage i).toUInt8, usageMax := (m.usage i).toUInt8
    logicalMin := m.desc.logicalMin, logicalMax := m.desc.logicalMax
    bitOffset := m.report.bitlen.toUInt32 + UInt32.ofNat i * m.desc.reportSize, bitLength := m.desc.reportSize
    reportSize := m.desc.reportSize, reportCount := 1, dataFlag := m.value }

/-- `desc->report_size * desc->report_count / desc->usage_num`. -/
def share (m : Main) : UInt32 := (m.bits.toInt32 / Int32.ofNat m.desc.usageNum).toUInt32

/-- The usage made for usage `i` of the list by OUTPUT. -/
def outputUsage (m : Main) (i : ℕ) (value : UInt32) : Usage :=
  { usagePage := m.desc.usagePage.toUInt16, usageMin := (m.usage i).toUInt8, usageMax := (m.usage i).toUInt8
    logicalMin := m.desc.logicalMin, logicalMax := m.desc.logicalMax
    bitOffset := m.report.bitlen.toUInt32 + UInt32.ofNat i * m.share, bitLength := m.share
    reportSize := m.desc.reportSize, reportCount := m.desc.reportCount, dataFlag := value }

/-- The loop of OUTPUT. From the second usage on `value` is the share. -/
def outputUsages (m : Main) : List ℕ → UInt32 → List Usage
  | [], _ => []
  | i :: is, value => m.outputUsage i value :: outputUsages m is m.share

/-- How often the loop over a list is gone through. -/
def turns (m : Main) : ℕ := if m.type = itemInput then m.desc.reportCount.toInt32.toInt.toNat else m.desc.usageNum

/-- The usages of the list that are read. -/
def reads (m : Main) : List ℕ := if m.Ranged then [] else List.range m.turns

/-- The usages that are made. -/
def made (m : Main) : List Usage :=
  if m.Ranged then [m.rangeUsage]
  else if m.type = itemInput then m.reads.map m.inputUsage
  else m.outputUsages m.reads m.value

/-- The report afterwards. -/
def grown (m : Main) : Report :=
  { m.report with
    bitlen := m.report.bitlen + m.bits.toUInt16
    usages := m.report.usages ++ m.made
    total := m.report.total + m.width }

/-- The description afterwards. -/
def used (m : Main) : Desc :=
  if m.Ranged then { m.desc with usageMin := unset, usageMax := unset, usageNum := 0 } else { m.desc with usageNum := 0 }

end Main

namespace Parser

/-- What the item at `pos` meets. -/
def main (p : Parser) (j : Junk) (type : UInt8) (value flags : UInt32) : Main :=
  { type := type, desc := p.desc, base := p.base, report := (getReport p.reports p.desc type).2.1
    behind := j.behind p.pos, value := value, flags := flags }

/-- `HID_ITEM_INPUT` and `HID_ITEM_OUTPUT`. -/
def layOut (p : Parser) (m : Main) : Parser :=
  { p with
    desc := m.used
    reports := (getReport p.reports p.desc m.type).1 ++ m.grown :: (getReport p.reports p.desc m.type).2.2
    base := 0
    log := p.log ++ [.main m] }

/-- `HID_ITEM_FEATURE`. The usages set so far stay in the list. -/
def feature (p : Parser) : Parser :=
  let found := getReport p.reports p.desc itemFeature
  { p with reports := found.1 ++ found.2.1 :: found.2.2, base := p.desc.usageNum }

/-- `HID_ITEM_USAGE`. -/
def usage (p : Parser) (value : UInt32) : Parser :=
  { p with
    desc :=
      { p.desc with
        usages := Function.update p.desc.usages p.desc.usageNum value
        usageNum := p.desc.usageNum + 1
        genericUsage := if p.desc.collection = 0 then value else p.desc.genericUsage } }

end Parser

/-- The cases of `vsfhid_parse_item`; empty ones are left to the default. -/
def parseTag (j : Junk) (p : Parser) (tag : UInt8) (value flags ival : UInt32) : Except Err Parser :=
  if tag = itemInput then .ok (p.layOut (p.main j itemInput value flags))
  else if tag = itemOutput then .ok (p.layOut (p.main j itemOutput value flags))
  else if tag = itemFeature then .ok p.feature
  else if tag = itemCollection then
    .ok { p with desc := { p.desc with collection := p.desc.collection + 1, usageNum := 0 }, base := 0 }
  else if tag = itemEndCollection then
    .ok { p with desc := { p.desc with collection := p.desc.collection - 1 }, base := p.desc.usageNum }
  else if tag = itemUsagePage then .ok { p with desc := { p.desc with usagePage := value } }
  else if tag = itemLogiMini then .ok { p with desc := { p.desc with logicalMin := ival } }
  else if tag = itemLogiMaxi then .ok { p with desc := { p.desc with logicalMax := ival } }
  else if tag = itemReportSize then .ok { p with desc := { p.desc with reportSize := value } }
  else if tag = itemReportId then .ok { p with desc := { p.desc with reportId := value.toInt32 }, hasId := true }
  else if tag = itemReportCount then .ok { p with desc := { p.desc with reportCount := value } }
  else if tag = itemUsage then if p.desc.usageNum < 16 then .ok (p.usage value) else .error .notEnoughResources
  else if tag = itemUsageMax then .ok { p with desc := { p.desc with usageMax := value } }
  else if tag = itemUsageMin then .ok { p with desc := { p.desc with usageMin := value } }
  else .ok p

/-- `vsfhid_parse_item`, for the item at `pos`. -/
def parseItem (j : Junk) (buf : ℕ → UInt8) (p : Parser) (tag : UInt8) (size : ℕ) : Except Err Parser :=
  let value := (data buf (p.pos + 1) size).getD (j.value p.pos)
  parseTag j p tag value ((data buf (p.pos + 1) size).getD 0)
    (if (data buf (p.pos + 1) size).isSome then signed size value else j.ival p.pos)

/-- One turn of the loop. -/
def turn (j : Junk) (buf : ℕ → UInt8) (p : Parser) : Except Err Parser :=
  if longItem (buf p.pos) then
    let size := (buf (p.pos + 1)).toNat
    .ok { p with pos := p.pos + (size + 1), log := p.log ++ [.long size (size + 1)] }
  else
    match parseItem j buf p (itemTag (buf p.pos)) (itemSize (buf p.pos)) with
    | .ok q => .ok { q with pos := p.pos + (itemSize (buf p.pos) + 1), err := false }
    | .error e => .error e

/-- The loop; a turn takes a byte at least, so that `len` turns are enough. -/
def loop (j : Junk) (buf : ℕ → UInt8) (len : ℕ) : ℕ → Parser → Except Err Parser
  | 0, p => .ok p
  | n + 1, p =>
    if p.pos < len then
      match turn j buf p with
      | .ok q => loop j buf len n q
      | .error e => .error e
    else .ok p

def Parser.init (j : Junk) : Parser :=
  { desc :=
      { reportId := -1, collection := 0, reportSize := 0, reportCount := 0, usagePage := 0, usageNum := 0
        logicalMin := 0, logicalMax := 0, usageMin := unset, usageMax := unset, genericUsage := 0, usages := fun _ => 0 }
    reports := [], hasId := false, pos := 0, err := j.err, base := 0, log := [] }

/-- `vsfhid_parse_report`, with the locals and the device as they are at the end. -/
def parseReport (j : Junk) (buf : ℕ → UInt8) (len : ℕ) : Except Err Parser :=
  match loop j buf len len (Parser.init j) with
  | .ok p => if p.desc.collection ≠ 0 ∨ p.err = true then .error .fail else .ok p
  | .error _ => .error .fail

/-! ### A right layout -/

/-- `[bit_offset, bit_offset + bit_length)`. -/
def Usage.bits (u : Usage) : Set ℤ :=
  Set.Ico u.bitOffset.toInt32.toInt (u.bitOffset.toInt32.toInt + u.bitLength.toInt32.toInt)

/-- The usages of a report have bits of their own, and all bits are some usage's. -/
structure Report.Laid (r : Report) : Prop where
  bitlen : r.bitlen.toNat = r.total
  disjoint : r.usages.Pairwise fun u v => Disjoint u.bits v.bits
  cover : ∀ x : ℤ, (∃ u ∈ r.usages, x ∈ u.bits) ↔ 0 ≤ x ∧ x < r.total

/-- The item is in the report of its type and id, its usages have its flags and were set for it. -/
structure Main.Right (m : Main) : Prop where
  named : m.report.named m.type m.desc.reportId = true
  flags : ∀ u ∈ m.made, u.dataFlag = m.flags
  reads : ∀ i ∈ m.reads, m.base ≤ i ∧ i < m.desc.usageNum

def Item.Right : Item → Prop
  | .main m => m.Right
  | .long size skipped => skipped = size + 3

/-- Two reports for INPUT and OUTPUT items have not the same type and id. -/
def Apart (r s : Report) : Prop := r.type = itemFeature ∨ (r.type, r.id) ≠ (s.type, s.id)

/-- What is asked of a descriptor that is accepted. -/
structure Right (p : Parser) : Prop where
  items : ∀ i ∈ p.log, i.Right
  laid : ∀ r ∈ p.reports, r.Laid
  apart : p.reports.Pairwise Apart

/-- When an item is met, the id is of 16 bits and not negative, or -1; the bits fit in 16; the usages were
set for it, as many as fields; and it has data, for a second usage the share. -/
structure Main.Meets (m : Main) : Prop where
  id : (idOf m.desc.reportId).toInt32 = m.desc.reportId
  fits : m.report.total + m.width < 2 ^ 16
  set : ¬m.Ranged → 0 < m.turns → m.base = 0 ∧ m.turns ≤ m.desc.usageNum
  data : m.Ranged ∨ 0 < m.turns → m.value = m.flags
  shares : ¬m.Ranged → m.type ≠ itemInput → m.width = m.turns * (m.width / m.turns)
  second : ¬m.Ranged → m.type ≠ itemInput → 1 < m.turns → m.width / m.turns = m.flags.toNat

/-- There is no long item, and every INPUT and OUTPUT item is met as it should. -/
def Item.Meets : Item → Prop
  | .main m => m.Meets
  | .long _ _ => False

/-! ### Words -/

variable {x value flags : UInt32} {u : Usage} {j : Junk} {p q : Parser} {type : UInt8} {buf : ℕ → UInt8} {len : ℕ}
  {P : Parser → Prop} {r : Report} {rs pre post : List Report} {d : Desc}

theorem toInt_small (h : x.toNat < 2 ^ 31) : x.toInt32.toInt = x.toNat := by
  show x.toBitVec.toInt = x.toNat
  apply BitVec.toInt_eq_toNat_of_lt
  have hx : x.toBitVec.toNat = x.toNat := rfl
  rw [hx]
  omega

theorem toNat_share (h : x.toNat < 2 ^ 31) {n : ℕ} (hn : n < 2 ^ 31) :
    (x.toInt32 / Int32.ofNat n).toUInt32.toNat = x.toNat / n := by
  have hx : x.toInt32.toBitVec.msb = false := BitVec.msb_eq_false_iff_two_mul_lt.mpr (by
    show 2 * x.toNat < 2 ^ 32
    omega)
  have hm : (Int32.ofNat n).toBitVec.msb = false := BitVec.msb_eq_false_iff_two_mul_lt.mpr (by
    rw [Int32.toBitVec_ofNat', BitVec.toNat_ofNat, Nat.mod_eq_of_lt (by omega)]
    omega)
  show (BitVec.sdiv x.toInt32.toBitVec (Int32.ofNat n).toBitVec).toNat = x.toNat / n
  rw [BitVec.sdiv_eq, hx, hm]
  show (x.toInt32.toBitVec / (Int32.ofNat n).toBitVec).toNat = x.toNat / n
  rw [BitVec.toNat_udiv, Int32.toBitVec_ofNat', BitVec.toNat_ofNat, Nat.mod_eq_of_lt (by omega)]
  rfl

/-! ### The usages of one item -/

theorem Usage.bits_eq {a n : ℕ} (ha : u.bitOffset.toNat = a) (hn : u.bitLength.toNat = n)
    (h : a + n < 2 ^ 16) : u.bits = Set.Ico (a : ℤ) ((a + n : ℕ) : ℤ) := by
  have h1 := toInt_small (x := u.bitOffset) (by omega)
  have h2 := toInt_small (x := u.bitLength) (by omega)
  rw [Usage.bits, h1, h2, ha, hn, Nat.cast_add]

namespace Main

variable {m : Main}

theorem bits_toNat (h : m.width < 2 ^ 16) : m.bits.toNat = m.width := by
  rw [bits, UInt32.toNat_mul, ← width, Nat.mod_eq_of_lt (by omega)]

theorem size_mul_turns (h : m.width < 2 ^ 16) (hi : m.type = itemInput) : m.desc.reportSize.toNat * m.turns = m.width := by
  rw [turns, if_pos hi, width]
  by_cases hc : m.desc.reportCount.toNat < 2 ^ 31
  · rw [toInt_small hc, Int.toNat_natCast]
  · -- so many fields have no bits
    have hs : m.desc.reportSize.toNat = 0 := by
      by_contra hne
      have hle : m.desc.reportCount.toNat ≤ m.width := Nat.le_mul_of_pos_left _ (pos_of_ne_zero hne)
      omega
    rw [hs, Nat.zero_mul, Nat.zero_mul]

variable {w : UInt32}

theorem offset_toNat (hb : m.report.bitlen.toNat = m.report.total) {i n : ℕ} (hi : i < n)
    (h : m.report.total + n * w.toNat < 2 ^ 16) :
    (m.report.bitlen.toUInt32 + UInt32.ofNat i * w).toNat = m.report.total + i * w.toNat := by
  have hle : i * w.toNat ≤ n * w.toNat := Nat.mul_le_mul_right _ hi.le
  have hmul : (UInt32.ofNat i * w).toNat = i * w.toNat := by
    rw [UInt32.toNat_mul, UInt32.toNat_ofNat']
    rcases eq_zero_or_pos w.toNat with hw | hw
    · rw [hw, Nat.mul_zero, Nat.mul_zero, Nat.zero_mod]
    · have hin : i ≤ i * w.toNat := Nat.le_mul_of_pos_right _ hw
      rw [Nat.mod_eq_of_lt (a := i) (by omega), Nat.mod_eq_of_lt (by omega)]
  rw [UInt32.toNat_add, hmul, UInt16.toNat_toUInt32, hb, Nat.mod_eq_of_lt (by omega)]

theorem tiles_row {f : ℕ → Usage} {n : ℕ} (hb : m.report.bitlen.toNat = m.report.total)
    (h : m.report.total + n * w.toNat < 2 ^ 16)
    (ho : ∀ i, (f i).bitOffset = m.report.bitlen.toUInt32 + UInt32.ofNat i * w) (hw : ∀ i, (f i).bitLength = w) :
    Tiles (m.report.total : ℤ) ((m.report.total + n * w.toNat : ℕ) : ℤ) ((List.range n).map fun i => (f i).bits) := by
  let place : ℕ → ℤ := fun i => ((m.report.total + i * w.toNat : ℕ) : ℤ)
  have hmono : Monotone place := by
    intro i k hik
    have := Nat.mul_le_mul_right w.toNat hik
    exact Int.ofNat_le.mpr (by omega)
  have hrow := Tiles.map_range hmono n
  have hmap : ((List.range n).map fun i => (f i).bits) = (List.range n).map fun i => Set.Ico (place i) (place (i + 1)) := by
    apply List.map_congr_left
    intro i hi
    have hin : i < n := List.mem_range.mp hi
    have hoff : (f i).bitOffset.toNat = m.report.total + i * w.toNat := by
      rw [ho]
      exact offset_toNat hb hin h
    have hlt : m.report.total + i * w.toNat + w.toNat < 2 ^ 16 := by
      have := Nat.mul_le_mul_right w.toNat (show i + 1 ≤ n from hin)
      rw [Nat.add_mul, Nat.one_mul] at this
      omega
    rw [Usage.bits_eq hoff (by rw [hw]) hlt]
    show Set.Ico _ _ = Set.Ico ((m.report.total + i * w.toNat : ℕ) : ℤ) ((m.report.total + (i + 1) * w.toNat : ℕ) : ℤ)
    rw [add_mul, one_mul, add_assoc]
  rw [hmap]
  have hz : place 0 = (m.report.total : ℤ) := by simp [place]
  rwa [hz] at hrow

theorem outputUsages_map {β : Type*} (g : Usage → β) (hg : ∀ i v, g (m.outputUsage i v) = g (m.outputUsage i 0)) :
    ∀ (is : List ℕ) (v : UInt32), (m.outputUsages is v).map g = is.map fun i => g (m.outputUsage i 0)
  | [], _ => rfl
  | i :: is, v => by
    rw [outputUsages, List.map_cons, List.map_cons, hg, outputUsages_map g hg is]

/-- How many of the bits the usages made have. -/
def filled (m : Main) : ℕ := if m.Ranged ∨ m.type = itemInput then m.width else m.turns * (m.width / m.turns)

theorem filled_le : m.filled ≤ m.width := by
  unfold filled
  split_ifs with h
  · exact le_refl _
  · exact Nat.mul_div_le _ _

/-- **The usages made by an item** follow one another in the report. -/
theorem made_tiles (hb : m.report.bitlen.toNat = m.report.total) (hf : m.report.total + m.width < 2 ^ 16)
    (hn : m.desc.usageNum ≤ 16) :
    Tiles (m.report.total : ℤ) ((m.report.total + m.filled : ℕ) : ℤ) (m.made.map Usage.bits) := by
  have hbits := bits_toNat (m := m) (by omega)
  by_cases hr : m.Ranged
  · have hone : m.rangeUsage.bits = Set.Ico (m.report.total : ℤ) ((m.report.total + m.width : ℕ) : ℤ) :=
      Usage.bits_eq (by rw [← hb]; exact UInt16.toNat_toUInt32 _) hbits hf
    rw [made, if_pos hr, filled, if_pos (.inl hr), List.map_singleton, hone]
    exact Tiles.single (Int.ofNat_le.mpr (Nat.le_add_right ..))
  by_cases hi : m.type = itemInput
  · have hw := size_mul_turns (m := m) (by omega) hi
    rw [made, if_neg hr, if_pos hi, filled, if_pos (.inr hi), reads, if_neg hr, List.map_map, ← hw, mul_comm]
    exact tiles_row hb (by rw [mul_comm, hw]; exact hf) (fun _ => rfl) fun _ => rfl
  · have ht : m.turns = m.desc.usageNum := if_neg hi
    have hs : m.share.toNat = m.width / m.turns := by
      rw [share, toNat_share (by omega) (by omega), hbits, ht]
    have hle := Nat.mul_div_le m.width m.turns
    rw [made, if_neg hr, if_neg hi, filled, if_neg (by tauto), reads, if_neg hr, outputUsages_map _ fun _ _ => rfl, ← hs]
    exact tiles_row hb (by rw [hs]; omega) (fun _ => rfl) fun _ => rfl

end Main

/-! ### The walk -/

theorem getReport_cases (rs : List Report) (d : Desc) (type : UInt8) {pre post : List Report} {r : Report}
    (h : getReport rs d type = (pre, r, post)) :
    (rs = pre ++ r :: post ∧ r.named type d.reportId = true) ∨
      (pre = [] ∧ post = rs ∧ r = fresh d type ∧ ∀ s ∈ rs, s.named type d.reportId = false) := by
  rw [getReport, List.span_eq_takeWhile_dropWhile] at h
  have happ := List.takeWhile_append_dropWhile (p := fun r : Report => !r.named type d.reportId) (l := rs)
  cases hd : rs.dropWhile fun r => !r.named type d.reportId with
  | nil =>
    rw [hd] at h
    obtain ⟨rfl, rfl, rfl⟩ := h
    refine .inr ⟨rfl, rfl, rfl, ?_⟩
    intro s hs
    have := List.dropWhile_eq_nil_iff.mp hd s hs
    simpa using this
  | cons a as =>
    rw [hd] at h happ
    obtain ⟨rfl, rfl, rfl⟩ := h
    refine .inl ⟨happ.symm, ?_⟩
    have := List.head?_dropWhile_not (fun r : Report => !r.named type d.reportId) rs
    rw [hd] at this
    simpa using this

/-- What a turn does to the reports and to what is remembered. -/
inductive Turned (p q : Parser) : Prop
  | quiet (hr : q.reports = p.reports) (hl : q.log = p.log) (hn : p.desc.usageNum ≤ 16 → q.desc.usageNum ≤ 16)
  | long (size : ℕ) (hr : q.reports = p.reports) (hn : q.desc = p.desc) (hl : q.log = p.log ++ [.long size (size + 1)])
  | feature (pre post : List Report) (r : Report) (hg : getReport p.reports p.desc itemFeature = (pre, r, post))
      (hr : q.reports = pre ++ r :: post) (hl : q.log = p.log) (hn : q.desc = p.desc)
  | main (m : Main) (pre post : List Report) (ht : m.type ≠ itemFeature) (hd : m.desc = p.desc)
      (hg : getReport p.reports m.desc m.type = (pre, m.report, post)) (hr : q.reports = pre ++ m.grown :: post)
      (hl : q.log = p.log ++ [.main m]) (hn : q.desc.usageNum = 0)

theorem Turned.of_layOut (ht : type ≠ itemFeature) : Turned p (p.layOut (p.main j type value flags)) := by
  refine .main (p.main j type value flags) _ _ ht rfl rfl rfl rfl ?_
  show (Main.used _).usageNum = 0
  unfold Main.used
  split_ifs <;> rfl

theorem ite_ok {c : Prop} [Decidable c] {x q : Parser} {b : Except Err Parser}
    (h : (if c then Except.ok x else b) = .ok q) : x = q ∨ b = .ok q := by
  split at h
  · exact .inl (Except.ok.inj h)
  · exact .inr h

theorem parseTag_turned {tag : UInt8} {ival : UInt32}
    (h : parseTag j p tag value flags ival = .ok q) : Turned p q := by
  unfold parseTag at h
  rcases ite_ok h with rfl | h
  · exact .of_layOut (by decide)
  rcases ite_ok h with rfl | h
  · exact .of_layOut (by decide)
  rcases ite_ok h with rfl | h
  · exact .feature _ _ _ rfl rfl rfl rfl
  rcases ite_ok h with rfl | h
  · exact .quiet rfl rfl fun _ => Nat.zero_le _
  -- the collection's end, and the items that set one field of the description
  iterate 7
    rcases ite_ok h with rfl | h
    · exact .quiet rfl rfl id
  split at h
  · split at h
    · rename_i hlt
      obtain rfl := Except.ok.inj h
      exact .quiet rfl rfl fun _ => hlt
    · cases h
  iterate 2
    rcases ite_ok h with rfl | h
    · exact .quiet rfl rfl id
  obtain rfl := Except.ok.inj h
  exact .quiet rfl rfl id

theorem Turned.moved {pos : ℕ} {err : Bool} (h : Turned p q) : Turned p { q with pos := pos, err := err } := by
  cases h with
  | quiet hr hl hn => exact .quiet hr hl hn
  | long size hr hn hl => exact .long size hr hn hl
  | feature pre post r hg hr hl hn => exact .feature pre post r hg hr hl hn
  | main m pre post ht hd hg hr hl hn => exact .main m pre post ht hd hg hr hl hn

theorem turn_turned (h : turn j buf p = .ok q) : Turned p q ∧ p.pos < q.pos := by
  unfold turn at h
  split at h
  · obtain rfl := Except.ok.inj h
    exact ⟨.long _ rfl rfl rfl, show p.pos < p.pos + (_ + 1) by omega⟩
  · split at h
    · rename_i q' hq
      obtain rfl := Except.ok.inj h
      exact ⟨(parseTag_turned hq).moved, show p.pos < p.pos + (_ + 1) by omega⟩
    · cases h

/-- **What a turn keeps, the loop keeps**; and the loop gets to the end. -/
theorem loop_walk (hstep : ∀ p q, P p → Turned p q → P q) : ∀ (n : ℕ) {p q : Parser}, P p → len ≤ p.pos + n →
      loop j buf len n p = .ok q → P q ∧ len ≤ q.pos
  | 0, p, q, hp, hlen, h => by
    obtain rfl := Except.ok.inj h
    exact ⟨hp, hlen⟩
  | n + 1, p, q, hp, hlen, h => by
    unfold loop at h
    split at h
    · split at h
      · rename_i hlt r hr
        have ht := turn_turned hr
        exact loop_walk hstep n (hstep p r hp ht.1) (by omega) h
      · cases h
    · obtain rfl := Except.ok.inj h
      exact ⟨hp, by omega⟩

theorem parseReport_walk
    (hstep : ∀ p q, P p → Turned p q → P q) (hinit : P (Parser.init j)) (h : parseReport j buf len = .ok q) : P q := by
  unfold parseReport at h
  split at h
  · rename_i p hp
    split at h
    · cases h
    · obtain rfl := Except.ok.inj h
      exact (loop_walk hstep len hinit (Nat.le_add_left ..) hp).1
  · cases h

/-! ### What holds of every descriptor -/

/-- `bitlen` is the sum but for lost bits, and with few bits all usages are in them. -/
structure Report.Kept (r : Report) : Prop where
  bitlen : r.bitlen = UInt16.ofNat r.total
  within : r.total < 2 ^ 16 → ∀ u ∈ r.usages, u.bits ⊆ Set.Ico (0 : ℤ) r.total

theorem Report.Kept.bitlen_toNat (h : r.Kept) (hf : r.total < 2 ^ 16) : r.bitlen.toNat = r.total := by
  rw [h.bitlen, UInt16.toNat_ofNat', Nat.mod_eq_of_lt hf]

theorem fresh_kept (d : Desc) (type : UInt8) : (fresh d type).Kept where
  bitlen := rfl
  within _ _ hu := absurd hu List.not_mem_nil

/-- The usages an item makes are not in the bits the report had. -/
theorem Main.made_bits {m : Main} (h : m.report.Kept) (hn : m.desc.usageNum ≤ 16)
    (hf : m.report.total + m.width < 2 ^ 16) {u : Usage} (hu : u ∈ m.made) :
    u.bits ⊆ Set.Ico (m.report.total : ℤ) ((m.report.total + m.filled : ℕ) : ℤ) :=
  (made_tiles (h.bitlen_toNat (by omega)) hf hn).subset (List.mem_map_of_mem hu)

theorem Main.grown_kept {m : Main} (h : m.report.Kept) (hn : m.desc.usageNum ≤ 16) : m.grown.Kept where
  bitlen := by
    show m.report.bitlen + m.bits.toUInt16 = UInt16.ofNat (m.report.total + m.width)
    apply UInt16.toNat_inj.mp
    rw [h.bitlen, UInt16.toNat_add, UInt16.toNat_ofNat', UInt16.toNat_ofNat', UInt32.toNat_toUInt16, Main.bits,
      UInt32.toNat_mul, ← Main.width]
    omega
  within hf u hu := by
    have hf' : m.report.total + m.width < 2 ^ 16 := hf
    have hle := m.filled_le
    intro x hx
    show 0 ≤ x ∧ x < ((m.report.total + m.width : ℕ) : ℤ)
    rcases List.mem_append.mp hu with hu | hu
    · have := h.within (by omega) u hu hx
      exact ⟨this.1, this.2.trans_le (Int.ofNat_le.mpr (Nat.le_add_right ..))⟩
    · have := Main.made_bits h hn hf' hu hx
      exact ⟨(Int.natCast_nonneg _).trans this.1, this.2.trans_le (Int.ofNat_le.mpr (by omega))⟩

theorem getReport_mem (h : getReport rs d type = (pre, r, post)) :
    (r ∈ rs ∨ r = fresh d type) ∧ (∀ s ∈ pre ++ post, s ∈ rs) ∧ ∀ s ∈ rs, s = r ∨ s ∈ pre ++ post := by
  rcases getReport_cases rs d type h with ⟨rfl, -⟩ | ⟨rfl, rfl, rfl, -⟩
  · simp only [List.mem_append, List.mem_cons]
    tauto
  · exact ⟨.inr rfl, fun _ hs => hs, fun _ hs => .inr hs⟩

theorem mem_mid {s : Report} : s ∈ pre ++ r :: post ↔ s = r ∨ s ∈ pre ++ post := by
  simp only [List.mem_append, List.mem_cons]
  tauto

structure Inv (p : Parser) : Prop where
  num : p.desc.usageNum ≤ 16
  kept : ∀ r ∈ p.reports, r.Kept

theorem Inv.report (h : Inv p) {d : Desc} {type : UInt8} {pre post : List Report} {r : Report}
    (hg : getReport p.reports d type = (pre, r, post)) : r.Kept ∧ ∀ s ∈ pre ++ post, s.Kept := by
  obtain ⟨hr, hs, -⟩ := getReport_mem hg
  refine ⟨?_, fun s hsm => h.kept s (hs s hsm)⟩
  rcases hr with hr | rfl
  · exact h.kept r hr
  · exact fresh_kept _ _

theorem Inv.turned (h : Inv p) (ht : Turned p q) : Inv q := by
  cases ht with
  | quiet hr hl hn => exact ⟨hn h.num, hr ▸ h.kept⟩
  | long size hr hn hl => exact ⟨hn ▸ h.num, hr ▸ h.kept⟩
  | feature pre post r hg hr hl hn =>
    obtain ⟨hk, hs⟩ := h.report hg
    refine ⟨hn ▸ h.num, ?_⟩
    rw [hr]
    intro s hsm
    rcases mem_mid.mp hsm with rfl | hsm
    · exact hk
    · exact hs s hsm
  | main m pre post ht hd hg hr hl hn =>
    obtain ⟨hk, hs⟩ := h.report hg
    refine ⟨hn ▸ Nat.zero_le _, ?_⟩
    rw [hr]
    intro s hsm
    rcases mem_mid.mp hsm with rfl | hsm
    · exact m.grown_kept hk (hd ▸ h.num)
    · exact hs s hsm

theorem Inv.init (j : Junk) : Inv (Parser.init j) where
  num := Nat.zero_le _
  kept _ hr := absurd hr List.not_mem_nil

/-! ### Enough -/

theorem Main.made_cases {m : Main} (hu : u ∈ m.made) : (m.Ranged ∨ 0 < m.turns) ∧ u.dataFlag = m.value ∨
      ¬m.Ranged ∧ m.type ≠ itemInput ∧ 1 < m.turns ∧ u.dataFlag = m.share := by
  by_cases hr : m.Ranged
  · rw [made, if_pos hr, List.mem_singleton] at hu
    exact .inl ⟨.inl hr, hu ▸ rfl⟩
  by_cases hi : m.type = itemInput
  · rw [made, if_neg hr, if_pos hi, reads, if_neg hr] at hu
    obtain ⟨i, him, rfl⟩ := List.mem_map.mp hu
    exact .inl ⟨.inr (Nat.zero_lt_of_lt (List.mem_range.mp him)), rfl⟩
  · rw [made, if_neg hr, if_neg hi, reads, if_neg hr] at hu
    cases ht : m.turns with
    | zero =>
      rw [ht] at hu
      cases hu
    | succ n =>
      rw [ht, List.range_succ_eq_map, outputUsages] at hu
      rcases List.mem_cons.mp hu with rfl | hu
      · exact .inl ⟨.inr (Nat.succ_pos n), rfl⟩
      · refine .inr ⟨hr, hi, ?_, ?_⟩
        · cases n with
          | zero => cases hu
          | succ n => exact Nat.succ_lt_succ (Nat.succ_pos n)
        · -- every usage but the first one has the share
          have hall : ∀ (is : List ℕ), ∀ w ∈ m.outputUsages is m.share, w.dataFlag = m.share := by
            intro is
            induction is with
            | nil =>
              intro w hw
              cases hw
            | cons i is ih =>
              intro w hw
              rcases List.mem_cons.mp hw with rfl | hw
              · rfl
              · exact ih w hw
          exact hall _ u hu

theorem Main.share_toNat {m : Main} (hi : m.type ≠ itemInput) (hw : m.width < 2 ^ 16) (hn : m.desc.usageNum ≤ 16) :
    m.share.toNat = m.width / m.turns := by
  have hbits := bits_toNat hw
  rw [share, toNat_share (by omega) (by omega), hbits, turns, if_neg hi]

theorem Main.Meets.right {m : Main} (h : m.Meets) (hn : m.desc.usageNum ≤ 16)
    (hname : m.report.named m.type m.desc.reportId = true) : m.Right where
  named := hname
  flags u hu := by
    rcases Main.made_cases hu with ⟨hm, hv⟩ | ⟨hr, hi, ht, hv⟩
    · rw [hv, h.data hm]
    · apply UInt32.toNat_inj.mp
      have hf := h.fits
      rw [hv, Main.share_toNat hi (by omega) hn, h.second hr hi ht]
  reads i hi := by
    unfold Main.reads at hi
    split_ifs at hi with hr
    · cases hi
    · have hit := List.mem_range.mp hi
      obtain ⟨hb, ht⟩ := h.set hr (Nat.zero_lt_of_lt hit)
      exact ⟨hb ▸ Nat.zero_le i, by omega⟩

theorem Main.Meets.filled {m : Main} (h : m.Meets) : m.filled = m.width := by
  unfold Main.filled
  split_ifs with hc
  · rfl
  · exact (h.shares (fun hr => hc (.inl hr)) fun hi => hc (.inr hi)).symm

/-- A report whose usages follow one another. -/
structure Report.Tiled (r : Report) : Prop where
  fits : r.total < 2 ^ 16
  tiles : Tiles (0 : ℤ) r.total (r.usages.map Usage.bits)

theorem Report.Tiled.laid (h : r.Tiled) (hk : r.Kept) : r.Laid where
  bitlen := hk.bitlen_toNat h.fits
  disjoint := List.pairwise_map.mp h.tiles.pairwise_disjoint
  cover x := by
    rw [← h.tiles.mem_iff x]
    simp only [List.mem_map, exists_exists_and_eq_and]

theorem fresh_tiled (d : Desc) (type : UInt8) : (fresh d type).Tiled := ⟨Nat.two_pow_pos 16, rfl⟩

theorem Main.Meets.grown_tiled {m : Main} (h : m.Meets) (hk : m.report.Kept) (ht : m.report.Tiled)
    (hn : m.desc.usageNum ≤ 16) : m.grown.Tiled where
  fits := h.fits
  tiles := by
    have hmade := Main.made_tiles (hk.bitlen_toNat ht.fits) h.fits hn
    rw [h.filled] at hmade
    show Tiles (0 : ℤ) ((m.report.total + m.width : ℕ) : ℤ) ((m.report.usages ++ m.made).map Usage.bits)
    rw [List.map_append]
    exact ht.tiles.append hmade

/-- A right layout, if all items are met as they should. -/
structure Good (p : Parser) : Prop where
  items : ∀ i ∈ p.log, i.Right
  tiled : ∀ r ∈ p.reports, r.Tiled
  apart : p.reports.Pairwise Apart

/-- The list stays apart when a report changes, or a fresh one comes in front. -/
theorem apart_put {r' : Report}
    (h : rs.Pairwise Apart) (hg : getReport rs d type = (pre, r, post)) (ht : r'.type = r.type) (hid : r'.id = r.id)
    (hnew : type = itemFeature ∨ (idOf d.reportId).toInt32 = d.reportId) : (pre ++ r' :: post).Pairwise Apart := by
  rcases getReport_cases rs d type hg with ⟨rfl, -⟩ | ⟨rfl, rfl, rfl, hno⟩
  · obtain ⟨hpre, hmid, hcross⟩ := List.pairwise_append.mp h
    obtain ⟨hr, hpost⟩ := List.pairwise_cons.mp hmid
    refine List.pairwise_append.mpr ⟨hpre, List.pairwise_cons.mpr ⟨?_, hpost⟩, ?_⟩
    · intro s hs
      have := hr s hs
      rwa [Apart, ← ht, ← hid] at this
    · intro s hs s' hs'
      rcases List.mem_cons.mp hs' with rfl | hs'
      · have := hcross s hs r List.mem_cons_self
        rwa [Apart, ← ht, ← hid] at this
      · exact hcross s hs s' (List.mem_cons_of_mem _ hs')
  · refine List.pairwise_cons.mpr ⟨?_, h⟩
    intro s hs
    rcases hnew with hf | hid'
    · exact .inl (ht.trans hf)
    · refine .inr ?_
      intro heq
      have hty : r'.type = s.type := congrArg Prod.fst heq
      have hids : r'.id = s.id := congrArg Prod.snd heq
      have := hno s hs
      rw [Report.named, ← hty, ht, ← hids, hid] at this
      simp [fresh, hid'] at this

theorem fresh_named (type : UInt8) (h : (idOf d.reportId).toInt32 = d.reportId) :
    (fresh d type).named type d.reportId = true := by
  simp [Report.named, fresh, h]

theorem Main.Meets.named {m : Main} (h : m.Meets) {rs pre post : List Report}
    (hg : getReport rs m.desc m.type = (pre, m.report, post)) : m.report.named m.type m.desc.reportId = true := by
  rcases getReport_cases rs m.desc m.type hg with ⟨-, hname⟩ | ⟨-, -, hr, -⟩
  · exact hname
  · rw [hr]
    exact fresh_named _ h.id

theorem Good.report (h : Good p) {d : Desc} {type : UInt8} {pre post : List Report} {r : Report}
    (hg : getReport p.reports d type = (pre, r, post)) : r.Tiled ∧ ∀ s ∈ pre ++ post, s.Tiled := by
  obtain ⟨hr, hs, -⟩ := getReport_mem hg
  refine ⟨?_, fun s hsm => h.tiled s (hs s hsm)⟩
  rcases hr with hr | rfl
  · exact h.tiled r hr
  · exact fresh_tiled _ _

theorem Good.turned (h : Good p) (hi : Inv p) (ht : Turned p q) (hm : ∀ i ∈ q.log, i.Meets) : Good q := by
  cases ht with
  | quiet hr hl hn => exact ⟨hl ▸ h.items, hr ▸ h.tiled, hr ▸ h.apart⟩
  | long size hr hn hl => exact (hm (.long size (size + 1)) (hl ▸ List.mem_append_right _ List.mem_cons_self)).elim
  | feature pre post r hg hr hl hn =>
    obtain ⟨htr, hs⟩ := h.report hg
    refine ⟨hl ▸ h.items, ?_, ?_⟩
    · rw [hr]
      intro s hsm
      rcases mem_mid.mp hsm with rfl | hsm
      · exact htr
      · exact hs s hsm
    · rw [hr]
      exact apart_put h.apart hg rfl rfl (.inl rfl)
  | main m pre post ht hd hg hr hl hn =>
    have hmm : m.Meets := hm (.main m) (hl ▸ List.mem_append_right _ List.mem_cons_self)
    obtain ⟨htr, hs⟩ := h.report hg
    refine ⟨?_, ?_, ?_⟩
    · rw [hl]
      intro i hil
      rcases List.mem_append.mp hil with hil | hil
      · exact h.items i hil
      · obtain rfl := List.mem_singleton.mp hil
        exact hmm.right (hd ▸ hi.num) (hmm.named hg)
    · rw [hr]
      intro s hsm
      rcases mem_mid.mp hsm with rfl | hsm
      · exact hmm.grown_tiled (hi.report hg).1 htr (hd ▸ hi.num)
      · exact hs s hsm
    · rw [hr]
      exact apart_put h.apart hg rfl rfl (.inr hmm.id)

/-! ### And needed -/

/-- The part of a right layout that an item met otherwise breaks for good. -/
structure Sound (p : Parser) : Prop where
  items : ∀ i ∈ p.log, i.Right
  fits : ∀ r ∈ p.reports, r.total < 2 ^ 16
  cover : ∀ r ∈ p.reports, ∀ x : ℤ, 0 ≤ x → x < r.total → ∃ u ∈ r.usages, x ∈ u.bits

theorem Right.sound (h : Right p) : Sound p where
  items := h.items
  fits r hr := (h.laid r hr).bitlen ▸ r.bitlen.toNat_lt
  cover r hr x h0 hx := ((h.laid r hr).cover x).mpr ⟨h0, hx⟩

/-- The id of a report is not cut. -/
def Report.Plain (r : Report) : Prop := r.type = itemFeature ∨ (idOf r.id.toInt32).toInt32 = r.id.toInt32

theorem idOf_of_named {m : Main} (hp : ∀ r ∈ rs, r.Plain) (ht : m.type ≠ itemFeature)
    (hg : getReport rs m.desc m.type = (pre, m.report, post)) (hname : m.report.named m.type m.desc.reportId = true) :
    (idOf m.desc.reportId).toInt32 = m.desc.reportId ∧ m.report.Plain := by
  have hboth : m.report.type = m.type ∧ m.report.id.toInt32 = m.desc.reportId := by
    simpa [Report.named] using hname
  rcases (getReport_mem hg).1 with hr | hr
  · rcases hp _ hr with hf | hplain
    · exact absurd (hboth.1.symm.trans hf) ht
    · exact ⟨hboth.2 ▸ hplain, .inr hplain⟩
  · have hid : (idOf m.desc.reportId).toInt32 = m.desc.reportId := by
      rw [hr] at hboth
      exact hboth.2
    refine ⟨hid, .inr ?_⟩
    rw [hboth.2]
    exact hid

/-- A bit the usages made leave out is nobody's. -/
theorem Main.filled_of_cover {m : Main} (hk : m.report.Kept) (hn : m.desc.usageNum ≤ 16)
    (hf : m.report.total + m.width < 2 ^ 16)
    (hc : ∀ x : ℤ, 0 ≤ x → x < m.grown.total → ∃ u ∈ m.grown.usages, x ∈ u.bits) : m.filled = m.width := by
  by_contra hne
  have hlt : m.filled < m.width := lt_of_le_of_ne m.filled_le hne
  obtain ⟨u, hu, hx⟩ := hc ((m.report.total + m.filled : ℕ) : ℤ) (Int.natCast_nonneg _) (by
    show _ < ((m.report.total + m.width : ℕ) : ℤ)
    exact Int.ofNat_lt.mpr (by omega))
  rcases List.mem_append.mp hu with hu | hu
  · have := (hk.within (by omega) u hu hx).2
    omega
  · have := (Main.made_bits hk hn hf hu hx).2
    exact absurd this (lt_irrefl _)

theorem Main.Right.data {m : Main} (h : m.Right) (hm : m.Ranged ∨ 0 < m.turns) : m.value = m.flags := by
  by_cases hr : m.Ranged
  · refine h.flags m.rangeUsage ?_
    rw [made, if_pos hr]
    exact List.mem_singleton_self _
  have ht : m.turns = m.turns - 1 + 1 := by
    have := hm.resolve_left hr
    omega
  by_cases hi : m.type = itemInput
  · refine h.flags (m.inputUsage 0) ?_
    rw [made, if_neg hr, if_pos hi, Main.reads, if_neg hr, ht]
    exact List.mem_map_of_mem (List.mem_range.mpr (Nat.succ_pos _))
  · refine h.flags (m.outputUsage 0 m.value) ?_
    rw [made, if_neg hr, if_neg hi, Main.reads, if_neg hr, ht, List.range_succ_eq_map]
    exact List.mem_cons_self

theorem Main.Right.second {m : Main} (h : m.Right) (hr : ¬m.Ranged) (hi : m.type ≠ itemInput) (ht : 1 < m.turns) :
    m.share = m.flags := by
  refine h.flags (m.outputUsage 1 m.share) ?_
  have h2 : m.turns = m.turns - 2 + 1 + 1 := by omega
  rw [made, if_neg hr, if_neg hi, Main.reads, if_neg hr, h2, List.range_succ_eq_map, List.range_succ_eq_map]
  exact List.mem_cons_of_mem _ List.mem_cons_self

theorem Main.Right.meets {m : Main} (h : m.Right) (hid : (idOf m.desc.reportId).toInt32 = m.desc.reportId)
    (hn : m.desc.usageNum ≤ 16) (hf : m.report.total + m.width < 2 ^ 16) (hfill : m.filled = m.width) : m.Meets where
  id := hid
  fits := hf
  set hr ht := by
    have hreads : m.reads = List.range m.turns := if_neg hr
    have hfirst := (h.reads 0 (hreads ▸ List.mem_range.mpr ht)).1
    have hlast := (h.reads (m.turns - 1) (hreads ▸ List.mem_range.mpr (by omega))).2
    omega
  data := h.data
  shares hr hi := by
    rw [Main.filled, if_neg (by tauto)] at hfill
    exact hfill.symm
  second hr hi ht := by
    rw [← Main.share_toNat hi (by omega) hn, h.second hr hi ht]

theorem Sound.back {m : Main} (hi : Inv p) (hs : Sound q) {pre post : List Report} (hd : m.desc = p.desc)
    (hg : getReport p.reports m.desc m.type = (pre, m.report, post)) (hr : q.reports = pre ++ m.grown :: post)
    (hl : q.log = p.log ++ [.main m]) : Sound p := by
  obtain ⟨hk, -⟩ := hi.report hg
  obtain ⟨-, -, hold⟩ := getReport_mem hg
  have hmid : ∀ s ∈ pre ++ post, s ∈ q.reports := fun s hs => hr ▸ mem_mid.mpr (.inr hs)
  have hgrown : m.grown ∈ q.reports := hr ▸ mem_mid.mpr (.inl rfl)
  have hf : m.report.total + m.width < 2 ^ 16 := hs.fits _ hgrown
  refine ⟨fun i hil => hs.items i (hl ▸ List.mem_append_left _ hil), ?_, ?_⟩
  · intro s hsp
    rcases hold s hsp with rfl | hsm
    · omega
    · exact hs.fits s (hmid s hsm)
  · intro s hsp x h0 hx
    rcases hold s hsp with rfl | hsm
    · obtain ⟨u, hu, hxu⟩ := hs.cover _ hgrown x h0 (hx.trans_le (Int.ofNat_le.mpr (Nat.le_add_right ..)))
      rcases List.mem_append.mp hu with hu | hu
      · exact ⟨u, hu, hxu⟩
      · -- what was made is behind the old bits
        exact absurd (Main.made_bits hk (hd ▸ hi.num) hf hu hxu).1 (not_le.mpr hx)
    · exact hs.cover s (hmid s hsm) x h0 hx

/-- What a right layout tells of the items. -/
structure Told (p : Parser) : Prop where
  meets : ∀ i ∈ p.log, i.Meets
  plain : ∀ r ∈ p.reports, r.Plain

theorem Told.turned (h : Sound p → Told p) (hi : Inv p) (ht : Turned p q) (hs : Sound q) : Told q := by
  cases ht with
  | quiet hr hl hn =>
    have hp := h ⟨hl ▸ hs.items, hr ▸ hs.fits, hr ▸ hs.cover⟩
    exact ⟨hl ▸ hp.meets, hr ▸ hp.plain⟩
  | long size hr hn hl =>
    have := hs.items (.long size (size + 1)) (hl ▸ List.mem_append_right _ List.mem_cons_self)
    exact absurd this (show ¬size + 1 = size + 3 by omega)
  | feature pre post r hg hr hl hn =>
    obtain ⟨hrm, hold, hback⟩ := getReport_mem hg
    have hin : ∀ s ∈ p.reports, s ∈ q.reports := fun s hsp => hr ▸ mem_mid.mpr (hback s hsp)
    have hp := h ⟨hl ▸ hs.items, fun s hsp => hs.fits s (hin s hsp), fun s hsp => hs.cover s (hin s hsp)⟩
    refine ⟨hl ▸ hp.meets, ?_⟩
    rw [hr]
    intro s hsm
    rcases mem_mid.mp hsm with rfl | hsm
    · rcases hrm with hrm | rfl
      · exact hp.plain _ hrm
      · exact .inl rfl
    · exact hp.plain s (hold s hsm)
  | main m pre post ht hd hg hr hl hn =>
    have hp := h (hs.back hi hd hg hr hl)
    have hgrown : m.grown ∈ q.reports := hr ▸ mem_mid.mpr (.inl rfl)
    have hright : m.Right := hs.items (.main m) (hl ▸ List.mem_append_right _ List.mem_cons_self)
    obtain ⟨hid, hplain⟩ := idOf_of_named hp.plain ht hg hright.named
    have hf : m.report.total + m.width < 2 ^ 16 := hs.fits _ hgrown
    have hfill := m.filled_of_cover (hi.report hg).1 (hd ▸ hi.num) hf (hs.cover _ hgrown)
    refine ⟨?_, ?_⟩
    · rw [hl]
      intro i hil
      rcases List.mem_append.mp hil with hil | hil
      · exact hp.meets i hil
      · obtain rfl := List.mem_singleton.mp hil
        exact hright.meets hid (hd ▸ hi.num) hf hfill
    · rw [hr]
      intro s hsm
      rcases mem_mid.mp hsm with rfl | hsm
      · exact hplain
      · exact hp.plain s ((getReport_mem hg).2.1 s hsm)

/-- **The layout of a descriptor that is accepted** is right exactly if there is no long item and every
INPUT and OUTPUT item is met as it should be. -/
theorem layout_right {j : Junk} {buf : ℕ → UInt8} {len : ℕ} {p : Parser} (h : parseReport j buf len = .ok p) :
    Right p ↔ ∀ i ∈ p.log, i.Meets := by
  constructor
  · intro hright
    have hinv : Inv p ∧ (Sound p → Told p) := by
      refine parseReport_walk (P := fun p => Inv p ∧ (Sound p → Told p)) ?_ ?_ h
      · rintro p q ⟨hi, ht⟩ hstep
        exact ⟨hi.turned hstep, Told.turned ht hi hstep⟩
      · exact ⟨.init j, fun _ => ⟨fun _ hi => absurd hi List.not_mem_nil, fun _ hr => absurd hr List.not_mem_nil⟩⟩
    exact (hinv.2 hright.sound).meets
  · intro hmeets
    have hinv : Inv p ∧ ((∀ i ∈ p.log, i.Meets) → Good p) := by
      refine parseReport_walk (P := fun p => Inv p ∧ ((∀ i ∈ p.log, i.Meets) → Good p)) ?_ ?_ h
      · rintro p q ⟨hi, hg⟩ hstep
        refine ⟨hi.turned hstep, fun hq => ?_⟩
        have hold : ∀ i ∈ p.log, i.Meets := by
          intro i hil
          apply hq
          cases hstep with
          | quiet _ hl _ => exact hl ▸ hil
          | long _ _ _ hl => exact hl ▸ List.mem_append_left _ hil
          | feature _ _ _ _ _ hl _ => exact hl ▸ hil
          | main _ _ _ _ _ _ _ hl _ => exact hl ▸ List.mem_append_left _ hil
        exact (hg hold).turned hi hstep hq
      · refine ⟨.init j, fun _ => ⟨fun _ hi => absurd hi List.not_mem_nil, ?_, List.Pairwise.nil⟩⟩
        exact fun _ hr => absurd hr List.not_mem_nil
    have hgood := hinv.2 hmeets
    exact ⟨hgood.items, fun r hr => (hgood.tiled r hr).laid (hinv.1.kept r hr), hgood.apart⟩

instance (m : Main) : Decidable m.Meets :=
  decidable_of_iff
    ((idOf m.desc.reportId).toInt32 = m.desc.reportId ∧ m.report.total + m.width < 2 ^ 16 ∧
      (¬m.Ranged → 0 < m.turns → m.base = 0 ∧ m.turns ≤ m.desc.usageNum) ∧
      (m.Ranged ∨ 0 < m.turns → m.value = m.flags) ∧
      (¬m.Ranged → m.type ≠ itemInput → m.width = m.turns * (m.width / m.turns)) ∧
      (¬m.Ranged → m.type ≠ itemInput → 1 < m.turns → m.width / m.turns = m.flags.toNat))
    ⟨fun ⟨h1, h2, h3, h4, h5, h6⟩ => ⟨h1, h2, h3, h4, h5, h6⟩, fun h => ⟨h.id, h.fits, h.set, h.data, h.shares, h.second⟩⟩

instance : DecidablePred Item.Meets
  | .main m => inferInstanceAs (Decidable m.Meets)
  | .long _ _ => inferInstanceAs (Decidable False)

/-- Nothing but zeros is read where nothing was set. -/
def zeros : Junk := { value := fun _ => 0, ival := fun _ => 0, behind := fun _ _ => 0, err := false }

/-- A joystick with one axis of eight bits. -/
def joystick : ℕ → UInt8 := fun i =>
  [0x05, 0x01, 0x09, 0x04, 0xA1, 0x01, 0x75, 0x08, 0x95, 0x01, 0x09, 0x30, 0x81, 0x02, 0xC0].getD i 0

theorem layout_right_joystick : ∃ p, parseReport zeros joystick 15 = .ok p ∧ Right p := by
  have hmeets : (match parseReport zeros joystick 15 with
      | .ok p => decide (∀ i ∈ p.log, i.Meets)
      | .error _ => false) = true := by
    decide +kernel
  cases h : parseReport zeros joystick 15 with
  | error e =>
    rw [h] at hmeets
    cases hmeets
  | ok p =>
    rw [h] at hmeets
    exact ⟨p, rfl, (layout_right h).mpr (of_decide_eq_true hmeets)⟩

/-- Eight bits that only fill up the report, so that they have no usage. -/
def padding : ℕ → UInt8 := fun i => [0x75, 0x08, 0x95, 0x01, 0x81, 0x01].getD i 0

/-- A usage is read though none was set. -/
theorem layout_padding : ∃ p, parseReport zeros padding 6 = .ok p ∧ ¬Right p := by
  have hread : (match parseReport zeros padding 6 with
      | .ok p => p.log.any fun i => match i with
        | .main m => decide (0 ∈ m.reads ∧ m.desc.usageNum = 0)
        | .long _ _ => false
      | .error _ => false) = true := by
    decide +kernel
  cases h : parseReport zeros padding 6 with
  | error e =>
    rw [h] at hread
    cases hread
  | ok p =>
    refine ⟨p, rfl, fun hright => ?_⟩
    rw [h] at hread
    obtain ⟨i, hi, hm⟩ := List.any_eq_true.mp hread
    cases i with
    | long size skipped => cases hm
    | main m =>
      obtain ⟨h0, hn⟩ := of_decide_eq_true hm
      have := (hright.items (.main m) hi).reads 0 h0
      omega

end Vsfhid
end Vsf
