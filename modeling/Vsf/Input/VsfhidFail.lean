/-
# A descriptor that is refused

`vsfhid_parse_report` takes a block for its description, one for each report and each usage. When it
fails it gives all of them back, but the reports stay in `report_list`: a refused descriptor with a
report leaves the device with memory that was freed. Which blocks are asked for is a matter of the
items alone (`demand`).
-/
import Mathlib
import Vsf.Lib.Heap
import Vsf.Input.Vsfhid

namespace Vsf
namespace Vsfhid

open Malloc List Option

/-! ### Parsing in memory -/

/-- `sizeof(struct hid_desc_t)`. -/
def descBytes : ℕ := 116

/-- `sizeof(struct vsfhid_report_t)`. -/
def reportBytes : ℕ := 20

/-- `sizeof(struct vsfhid_usage_t)`. -/
def usageBytes : ℕ := 36

/-- The offset of `list` in it. -/
def usageList : ℕ := 32

/-- The blocks of a report and its usages; `value` is `NULL` without input. -/
structure Node where
  block : ℕ
  usages : List ℕ
deriving DecidableEq

/-- The locals, the blocks of each listed report, and the memory. -/
structure Parsing where
  parser : Parser
  nodes : List Node
  heap : Heap

variable (A : Allocator) (j : Junk) (buf : ℕ → UInt8) (len : ℕ)

/-- The memory of `vsfhid_get_report`: whether there is a report. -/
def getNode (p : Parser) (type : UInt8) (nodes : List Node) (h : Heap) : Bool × List Node × Heap :=
  if p.reports.any (Report.named type p.desc.reportId) then (true, nodes, h)
  else
    match h.malloc A reportBytes with
    | (some a, h) => (true, ⟨a, []⟩ :: nodes, h)
    | (none, h) => (false, nodes, h)

/-- The memory of `n` usages for the report at `k`: whether there was enough. -/
def addUsages (k : ℕ) : ℕ → List Node → Heap → Bool × List Node × Heap
  | 0, nodes, h => (true, nodes, h)
  | n + 1, nodes, h =>
    match h.malloc A usageBytes with
    | (some a, h) => addUsages k n (nodes.modify k fun x => { x with usages := x.usages ++ [a] }) h
    | (none, h) => (false, nodes, h)

/-- How many usages INPUT or OUTPUT make. -/
def usageCount (d : Desc) (type : UInt8) : ℕ :=
  if d.usageMin ≠ unset ∧ d.usageMax ≠ unset then 1
  else if type = itemInput then d.reportCount.toInt32.toInt.toNat
  else d.usageNum

/-- The memory of the item at `pos`. -/
def itemMemory (p : Parser) (nodes : List Node) (h : Heap) : Bool × List Node × Heap :=
  let tag := itemTag (buf p.pos)
  if longItem (buf p.pos) then (true, nodes, h)
  else if tag = itemInput ∨ tag = itemOutput then
    match getNode A p tag nodes h with
    | (true, nodes, h) => addUsages A (getReport p.reports p.desc tag).1.length (usageCount p.desc tag) nodes h
    | (false, nodes, h) => (false, nodes, h)
  else if tag = itemFeature then getNode A p tag nodes h
  else (true, nodes, h)

/-- A turn of the loop, and its error, after which only the memory matters. -/
def turnIn (s : Parsing) : Option Err × Parsing :=
  match itemMemory A buf s.parser s.nodes s.heap with
  | (false, nodes, h) => (some .fail, { s with nodes := nodes, heap := h })
  | (true, nodes, h) =>
    match turn j buf s.parser with
    | .ok q => (none, ⟨q, nodes, h⟩)
    | .error e => (some e, { s with nodes := nodes, heap := h })

/-- The loop. -/
def loopIn : ℕ → Parsing → Option Err × Parsing
  | 0, s => (none, s)
  | n + 1, s =>
    if s.parser.pos < len then
      match turnIn A j buf s with
      | (none, s) => loopIn n s
      | (some e, s) => (some e, s)
    else (none, s)

/-- `vsfhid_free_dev`: of a usage it is `list` whose address is given back. -/
def freeDev : List Node → Heap → Heap
  | [], h => h
  | x :: xs, h => freeDev xs ((x.usages.foldl (fun h u => h.freeIn (u + usageList)) h).freeIn x.block)

/-- `vsfhid_parse_report`: the error, `report_list`, which was `dev`, and the memory. -/
def parseReportIn (dev : List Node) (h : Heap) : Option Err × List Node × Heap :=
  match h.malloc A descBytes with
  | (none, h) => (some .fail, dev, h)
  | (some desc, h) =>
    let r := loopIn A j buf len len ⟨Parser.init j, [], h⟩
    let h := r.2.heap.freeIn desc
    if r.2.parser.desc.collection ≠ 0 ∨ r.1 ≠ none ∨ r.2.parser.err = true then (some .fail, r.2.nodes, freeDev r.2.nodes h)
    else (none, r.2.nodes, h)

/-! ### What a descriptor asks for -/

/-- The short items from `pos` on: their tags and values. -/
def items : ℕ → ℕ → List (UInt8 × UInt32)
  | 0, _ => []
  | n + 1, pos =>
    if pos < len then
      if longItem (buf pos) then items n (pos + ((buf (pos + 1)).toNat + 1))
      else
        (itemTag (buf pos), (data buf (pos + 1) (itemSize (buf pos))).getD (j.value pos)) ::
          items n (pos + (itemSize (buf pos) + 1))
    else []

/-- What counts for the next items: collections, usages, fields, the id, the usage range, the reports. -/
structure Scan where
  depth : Int32
  usages : ℕ
  count : UInt32
  id : Int32
  min : UInt32
  max : UInt32
  reports : List (UInt8 × Int16)

namespace Scan

def init : Scan := ⟨0, 0, 0, -1, unset, unset, []⟩

variable (c : Scan)

/-- There is a report of this type with the id. -/
def known (type : UInt8) : Bool := c.reports.any fun r => r.1 == type && r.2.toInt32 == c.id

/-- The reports after an item of this type. -/
def joined (type : UInt8) : List (UInt8 × Int16) := if c.known type then c.reports else (type, idOf c.id) :: c.reports

def ranged : Bool := c.min != unset && c.max != unset

/-- One item, if it is right: not a usage more than 16. -/
def item (tag : UInt8) (value : UInt32) : Option Scan :=
  if tag = itemInput ∨ tag = itemOutput then
    some { c with
      usages := 0
      min := if c.ranged then unset else c.min
      max := if c.ranged then unset else c.max
      reports := c.joined tag }
  else if tag = itemFeature then some { c with reports := c.joined tag }
  else if tag = itemCollection then some { c with depth := c.depth + 1, usages := 0 }
  else if tag = itemEndCollection then some { c with depth := c.depth - 1 }
  else if tag = itemReportId then some { c with id := value.toInt32 }
  else if tag = itemReportCount then some { c with count := value }
  else if tag = itemUsage then if c.usages < 16 then some { c with usages := c.usages + 1 } else none
  else if tag = itemUsageMax then some { c with max := value }
  else if tag = itemUsageMin then some { c with min := value }
  else some c

/-- The usages of an INPUT or OUTPUT item. -/
def made (type : UInt8) : ℕ :=
  if c.ranged then 1 else if type = itemInput then c.count.toInt32.toInt.toNat else c.usages

/-- The blocks that an item asks for: a report if there is none, and its usages. -/
def asks (tag : UInt8) : List ℕ :=
  if tag = itemInput ∨ tag = itemOutput then
    (if c.known tag then [] else [reportBytes]) ++ List.replicate (c.made tag) usageBytes
  else if tag = itemFeature then if c.known tag then [] else [reportBytes]
  else []

end Scan

/-- The blocks asked for up to the first item not right, and what counts then. -/
def demand : Scan → List (UInt8 × UInt32) → List ℕ × Option Scan
  | c, [] => ([], some c)
  | c, (tag, value) :: rest =>
    match c.item tag value with
    | none => ([], none)
    | some c' => (c.asks tag ++ (demand c' rest).1, (demand c' rest).2)

/-- Those of a descriptor. -/
def demandOf : List ℕ × Option Scan := demand Scan.init (items j buf len len 0)

/-- All items are right, and no collection is left open. -/
def Balanced : Prop := ∃ c, (demandOf j buf len).2 = some c ∧ c.depth = 0

/-- A descriptor accepted is right; one refused gives all back once and leaves no reports. -/
structure Safe (dev : List Node) (h : Heap) : Prop where
  accepted : (parseReportIn A j buf len dev h).1 = none → Balanced j buf len
  freed : (parseReportIn A j buf len dev h).1 ≠ none →
    (∀ b, b ∈ (parseReportIn A j buf len dev h).2.2.live ↔ b ∈ h.live) ∧ (parseReportIn A j buf len dev h).2.2.strays = h.strays
  empty : (parseReportIn A j buf len dev h).1 ≠ none → (parseReportIn A j buf len dev h).2.1 = []

/-- No reports before, if there is no memory for the description; and if there is, and for a first report,
then for all, and the descriptor is right. -/
structure SafeWhen (dev : List Node) (h : Heap) : Prop where
  desc : (h.malloc A descBytes).1 = none → dev = []
  all : (h.malloc A descBytes).1 ≠ none → ∀ n ∈ (demandOf j buf len).1.head?, ((h.malloc A descBytes).2.malloc A n).1 ≠ none →
      (Heap.mallocAll A (demandOf j buf len).1 (h.malloc A descBytes).2).1 = true ∧ Balanced j buf len

variable {A : Allocator} {j : Junk} {buf : ℕ → UInt8} {len : ℕ}

/-! ### The items and the parser -/

/-- What counts of the parser's locals. -/
def scanOf (p : Parser) : Scan :=
  ⟨p.desc.collection, p.desc.usageNum, p.desc.reportCount, p.desc.reportId, p.desc.usageMin, p.desc.usageMax,
    p.reports.map fun r => (r.type, r.id)⟩

theorem known_scanOf (p : Parser) (type : UInt8) : (scanOf p).known type = p.reports.any (Report.named type p.desc.reportId) := by
  rw [Scan.known, scanOf, List.any_map]
  rfl

variable {p : Parser} {type : UInt8} {reports : ℕ} {s s' : Parsing} {sizes rest : List ℕ} {dev : List Node}

theorem known_cases {pre post : List Report} {r : Report}
    (hg : getReport p.reports p.desc type = (pre, r, post)) :
    (scanOf p).known type = true ∧ p.reports = pre ++ r :: post ∨
      ¬(scanOf p).known type = true ∧ pre = [] ∧ post = p.reports ∧ r = fresh p.desc type := by
  rw [known_scanOf, List.any_eq_true]
  rcases getReport_cases p.reports p.desc type hg with ⟨heq, hname⟩ | ⟨hpre, hpost, hr, hno⟩
  · exact .inl ⟨⟨r, by rw [heq]; exact mem_append_right _ mem_cons_self, hname⟩, heq⟩
  · refine .inr ⟨?_, hpre, hpost, hr⟩
    rintro ⟨s, hs, hname⟩
    rw [hno s hs] at hname
    exact Bool.false_ne_true hname

theorem joined_scanOf (p : Parser) (type : UInt8) (r' : Report) (ht : r'.type = (getReport p.reports p.desc type).2.1.type)
    (hid : r'.id = (getReport p.reports p.desc type).2.1.id) :
    (scanOf p).joined type =
      ((getReport p.reports p.desc type).1 ++ r' :: (getReport p.reports p.desc type).2.2).map fun r => (r.type, r.id) := by
  unfold Scan.joined
  generalize hg : getReport p.reports p.desc type = g at ht hid
  obtain ⟨pre, r, post⟩ := g
  rcases known_cases hg with ⟨hk, heq⟩ | ⟨hk, rfl, rfl, rfl⟩
  · rw [if_pos hk]
    simp only [scanOf, heq, map_append, map_cons, ht, hid]
  · rw [if_neg hk, nil_append, map_cons, ht, hid]
    rfl

theorem ranged_scanOf (p : Parser) (type : UInt8) (value flags : UInt32) :
    (scanOf p).ranged = true ↔ (p.main j type value flags).Ranged := by
  simp [Scan.ranged, scanOf, Main.Ranged, Parser.main]

theorem item_layOut (p : Parser) {type : UInt8} (value flags : UInt32) (ht : type = itemInput ∨ type = itemOutput) (v : UInt32) :
    (scanOf p).item type v = some (scanOf (p.layOut (p.main j type value flags))) := by
  have hr := ranged_scanOf (j := j) p type value flags
  have hreports := joined_scanOf p type (p.main j type value flags).grown rfl rfl
  have hlaid : scanOf (p.layOut (p.main j type value flags)) =
    ⟨(p.main j type value flags).used.collection, (p.main j type value flags).used.usageNum,
      (p.main j type value flags).used.reportCount, (p.main j type value flags).used.reportId,
      (p.main j type value flags).used.usageMin, (p.main j type value flags).used.usageMax,
      ((getReport p.reports p.desc type).1 ++ (p.main j type value flags).grown :: (getReport p.reports p.desc type).2.2).map
        fun r => (r.type, r.id)⟩ := rfl
  rw [Scan.item, if_pos ht, hreports]
  by_cases hrange : (p.main j type value flags).Ranged
  · rw [if_pos (hr.mpr hrange), if_pos (hr.mpr hrange), hlaid, Main.used, if_pos hrange]
    rfl
  · rw [if_neg fun h => hrange (hr.mp h), if_neg fun h => hrange (hr.mp h), hlaid, Main.used, if_neg hrange]
    rfl

/-- **What counts of the parser** is what counts of the items. -/
theorem parseTag_scan (p : Parser) (tag : UInt8) (value flags ival : UInt32) :
    (scanOf p).item tag value = (parseTag j p tag value flags ival).toOption.map scanOf := by
  by_cases hin : tag = itemInput ∨ tag = itemOutput
  · rw [item_layOut (j := j) p value flags hin]
    rcases hin with rfl | rfl <;> rfl
  by_cases hfeature : tag = itemFeature
  · subst hfeature
    have hreports := joined_scanOf p itemFeature (getReport p.reports p.desc itemFeature).2.1 rfl rfl
    rw [Scan.item, if_neg hin, if_pos rfl, hreports]
    rfl
  by_cases husage : tag = itemUsage
  · subst husage
    have hscan : (scanOf p).item itemUsage value =
      if p.desc.usageNum < 16 then some { scanOf p with usages := p.desc.usageNum + 1 } else none := rfl
    have hparse : parseTag j p itemUsage value flags ival =
      if p.desc.usageNum < 16 then .ok (p.usage value) else .error .notEnoughResources := rfl
    rw [hscan, hparse]
    by_cases hlt : p.desc.usageNum < 16
    · rw [if_pos hlt, if_pos hlt]
      rfl
    · rw [if_neg hlt, if_neg hlt]
      rfl
  obtain ⟨hinput, houtput⟩ := not_or.mp hin
  unfold parseTag Scan.item
  rw [if_neg hin, if_neg hfeature, if_neg hinput, if_neg houtput, if_neg hfeature]
  by_cases h1 : tag = itemCollection
  · rw [if_pos h1, if_pos h1]
    rfl
  rw [if_neg h1, if_neg h1]
  by_cases h2 : tag = itemEndCollection
  · rw [if_pos h2, if_pos h2]
    rfl
  rw [if_neg h2, if_neg h2]
  by_cases h3 : tag = itemReportId
  · subst h3
    rfl
  by_cases h4 : tag = itemReportCount
  · subst h4
    rfl
  rw [if_neg h3, if_neg h4, if_neg husage]
  by_cases h5 : tag = itemUsageMax
  · subst h5
    rfl
  by_cases h6 : tag = itemUsageMin
  · subst h6
    rfl
  rw [if_neg h5, if_neg h6]
  -- the other tags set fields that do not count
  split_ifs <;> rfl

/-! ### The memory of an item -/

/-- There is a node for each report. -/
def Fits (p : Parser) (nodes : List Node) : Prop := nodes.length = p.reports.length

theorem length_joined (p : Parser) (type : UInt8) :
    ((scanOf p).joined type).length = if (scanOf p).known type then p.reports.length else p.reports.length + 1 := by
  unfold Scan.joined
  by_cases hk : (scanOf p).known type = true
  · rw [if_pos hk, if_pos hk, scanOf, length_map]
  · rw [if_neg hk, if_neg hk, length_cons, scanOf, length_map]

/-- A report that is there needs no memory, and one that is not a block. -/
theorem getNode_known (hk : (scanOf p).known type = true) (nodes : List Node) (h : Heap) :
    getNode A p type nodes h = (true, nodes, h) := by
  rw [known_scanOf] at hk
  rw [getNode, if_pos hk]

theorem getNode_some (hk : ¬(scanOf p).known type = true) (nodes : List Node) {h : Heap} {a : ℕ}
    (hm : (h.malloc A reportBytes).1 = some a) : getNode A p type nodes h = (true, ⟨a, []⟩ :: nodes, (h.malloc A reportBytes).2) := by
  rw [known_scanOf] at hk
  rw [getNode, if_neg hk, ← Prod.mk.eta (p := h.malloc A reportBytes), hm]

theorem getNode_none (hk : ¬(scanOf p).known type = true) (nodes : List Node) {h : Heap}
    (hm : (h.malloc A reportBytes).1 = none) : getNode A p type nodes h = (false, nodes, (h.malloc A reportBytes).2) := by
  rw [known_scanOf] at hk
  rw [getNode, if_neg hk, ← Prod.mk.eta (p := h.malloc A reportBytes), hm]

/-- **The memory of usages** is a block for each. -/
theorem addUsages_spec (k : ℕ) : ∀ (n : ℕ) (nodes : List Node) (h : Heap),
    (addUsages A k n nodes h).1 = (Heap.mallocAll A (List.replicate n usageBytes) h).1 ∧
      (addUsages A k n nodes h).2.2 = (Heap.mallocAll A (List.replicate n usageBytes) h).2 ∧
      (addUsages A k n nodes h).2.1.length = nodes.length
  | 0, _, _ => ⟨rfl, rfl, rfl⟩
  | n + 1, nodes, h => by
    rw [replicate_succ]
    cases hm : (h.malloc A usageBytes).1 with
    | none =>
      rw [Heap.mallocAll_none hm, addUsages, ← Prod.mk.eta (p := h.malloc A usageBytes), hm]
      exact ⟨rfl, rfl, rfl⟩
    | some a =>
      obtain ⟨hok, hheap, hlen⟩ := addUsages_spec k n (nodes.modify k fun x => { x with usages := x.usages ++ [a] }) (h.malloc A usageBytes).2
      rw [Heap.mallocAll_some hm, addUsages, ← Prod.mk.eta (p := h.malloc A usageBytes), hm]
      exact ⟨hok, hheap, hlen.trans (length_modify ..)⟩

/-- What an item's memory comes to: its blocks, a node for each report, or nothing at all. -/
structure Asked (A : Allocator) (sizes : List ℕ) (nodes : List Node) (h : Heap) (reports : ℕ) (r : Bool × List Node × Heap) : Prop where
  served : r.1 = (Heap.mallocAll A sizes h).1
  heap : r.2.2 = (Heap.mallocAll A sizes h).2
  length : r.1 = true → r.2.1.length = reports
  nil : r.2.1 = [] ↔ nodes = [] ∧ ∀ n ∈ sizes.head?, (h.malloc A n).1 = none

theorem Asked.nothing {nodes : List Node} {h : Heap} (hlen : nodes.length = reports) :
    Asked A [] nodes h reports (true, nodes, h) :=
  ⟨rfl, rfl, fun _ => hlen, (and_iff_left nofun).symm⟩

theorem asked_getNode {nodes : List Node} (hf : Fits p nodes) (type : UInt8) (h : Heap) :
    Asked A (if (scanOf p).known type then [] else [reportBytes]) nodes h ((scanOf p).joined type).length (getNode A p type nodes h) := by
  rw [length_joined]
  by_cases hk : (scanOf p).known type = true
  · rw [getNode_known hk, if_pos hk, if_pos hk]
    exact .nothing hf
  · rw [if_neg hk, if_neg hk]
    cases hm : (h.malloc A reportBytes).1 with
    | none =>
      rw [getNode_none hk nodes hm]
      refine ⟨?_, ?_, nofun, (and_iff_left ?_).symm⟩
      · rw [Heap.mallocAll_none hm]
      · rw [Heap.mallocAll_none hm]
      · rintro n ⟨⟩
        exact hm
    | some a =>
      rw [getNode_some hk nodes hm]
      refine ⟨?_, ?_, fun _ => congrArg (· + 1) hf, iff_of_false (cons_ne_nil _ _) ?_⟩
      · rw [Heap.mallocAll_some hm]
        rfl
      · rw [Heap.mallocAll_some hm]
        rfl
      · rintro ⟨-, hnone⟩
        rw [hnone _ rfl] at hm
        cases hm

theorem ne_nil_of_known {nodes : List Node} (hf : Fits p nodes) {type : UInt8} (hk : (scanOf p).known type = true) :
    nodes ≠ [] := by
  rintro rfl
  have hreports : p.reports = [] := length_eq_zero_iff.mp hf.symm
  rw [known_scanOf, hreports] at hk
  exact Bool.false_ne_true hk

theorem asked_addUsages {nodes : List Node} (hf : Fits p nodes) (type : UInt8) (h : Heap) (k n : ℕ) :
    Asked A ((if (scanOf p).known type then [] else [reportBytes]) ++ List.replicate n usageBytes) nodes h ((scanOf p).joined type).length
      (match getNode A p type nodes h with
        | (true, nodes, h) => addUsages A k n nodes h
        | (false, nodes, h) => (false, nodes, h)) := by
  rw [length_joined]
  by_cases hk : (scanOf p).known type = true
  · obtain ⟨hok, hheap, hlen⟩ := addUsages_spec (A := A) k n nodes h
    rw [getNode_known hk, if_pos hk, if_pos hk]
    refine ⟨hok, hheap, fun _ => hlen.trans hf, ?_⟩
    have hne := ne_nil_of_known hf hk
    refine iff_of_false (fun hnil => ?_) fun hnil => hne hnil.1
    rw [hnil] at hlen
    exact hne (length_eq_zero_iff.mp hlen.symm)
  · rw [if_neg hk, if_neg hk, singleton_append]
    cases hm : (h.malloc A reportBytes).1 with
    | none =>
      rw [getNode_none hk nodes hm]
      refine ⟨?_, ?_, nofun, (and_iff_left ?_).symm⟩
      · rw [Heap.mallocAll_none hm]
      · rw [Heap.mallocAll_none hm]
      · rintro m ⟨⟩
        exact hm
    | some a =>
      obtain ⟨hok, hheap, hlen⟩ := addUsages_spec (A := A) k n (⟨a, []⟩ :: nodes) (h.malloc A reportBytes).2
      rw [getNode_some hk nodes hm]
      refine ⟨?_, ?_, fun _ => hlen.trans (congrArg (· + 1) hf), iff_of_false (fun hnil => ?_) ?_⟩
      · rw [Heap.mallocAll_some hm]
        exact hok
      · rw [Heap.mallocAll_some hm]
        exact hheap
      · dsimp only at hnil
        rw [hnil] at hlen
        exact Nat.succ_ne_zero _ hlen.symm
      · rintro ⟨-, hnone⟩
        rw [hnone _ rfl] at hm
        cases hm

theorem usageCount_scan (p : Parser) (type : UInt8) : usageCount p.desc type = (scanOf p).made type := by
  have hr : (scanOf p).ranged = true ↔ p.desc.usageMin ≠ unset ∧ p.desc.usageMax ≠ unset := by
    simp [Scan.ranged, scanOf]
  unfold usageCount Scan.made
  by_cases hrange : (scanOf p).ranged = true
  · rw [if_pos hrange, if_pos (hr.mp hrange)]
  · rw [if_neg hrange, if_neg fun h => hrange (hr.mpr h)]
    rfl

/-- **The memory of an item** is what it asks for. -/
theorem asked_itemMemory {nodes : List Node} (hf : Fits p nodes) (h : Heap) (hshort : longItem (buf p.pos) = false)
    {c : Scan} {value : UInt32} (hitem : (scanOf p).item (itemTag (buf p.pos)) value = some c) :
    Asked A ((scanOf p).asks (itemTag (buf p.pos))) nodes h c.reports.length (itemMemory A buf p nodes h) := by
  unfold itemMemory Scan.asks
  rw [hshort]
  rw [if_neg Bool.false_ne_true]
  unfold Scan.item at hitem
  by_cases hin : itemTag (buf p.pos) = itemInput ∨ itemTag (buf p.pos) = itemOutput
  · rw [if_pos hin] at hitem ⊢
    obtain rfl := some.inj hitem
    rw [if_pos hin, usageCount_scan]
    exact asked_addUsages hf _ h _ _
  rw [if_neg hin] at hitem ⊢
  rw [if_neg hin]
  by_cases hfeature : itemTag (buf p.pos) = itemFeature
  · rw [if_pos hfeature] at hitem ⊢
    obtain rfl := some.inj hitem
    rw [if_pos hfeature, hfeature]
    exact asked_getNode hf itemFeature h
  rw [if_neg hfeature] at hitem ⊢
  rw [if_neg hfeature]
  refine .nothing (hf.trans ?_)
  have hsame : c.reports = (scanOf p).reports := by
    split_ifs at hitem
    all_goals
      obtain rfl := some.inj hitem
      rfl
  rw [hsame, scanOf, length_map]

theorem itemMemory_none {value : UInt32} (hitem : (scanOf p).item (itemTag (buf p.pos)) value = none)
    (nodes : List Node) (h : Heap) : itemMemory A buf p nodes h = (true, nodes, h) := by
  have husage : itemTag (buf p.pos) = itemUsage := by
    unfold Scan.item at hitem
    split_ifs at hitem
    assumption
  unfold itemMemory
  dsimp only
  rw [husage]
  split_ifs with hlong hin hfeature
  · rfl
  · exact absurd hin (by decide)
  · exact absurd hfeature (by decide)
  · rfl

/-! ### The loop -/

/-- The value of the item at `pos`. -/
def valueAt (j : Junk) (buf : ℕ → UInt8) (pos : ℕ) : UInt32 := (data buf (pos + 1) (itemSize (buf pos))).getD (j.value pos)

theorem turn_none (hshort : longItem (buf p.pos) = false)
    (hitem : (scanOf p).item (itemTag (buf p.pos)) (valueAt j buf p.pos) = none) : ∃ e, turn j buf p = .error e := by
  unfold turn
  rw [if_neg (by rw [hshort]; exact Bool.false_ne_true)]
  unfold parseItem
  rw [parseTag_scan (j := j) p _ _ ((data buf (p.pos + 1) (itemSize (buf p.pos))).getD 0)
    (if (data buf (p.pos + 1) (itemSize (buf p.pos))).isSome then signed (itemSize (buf p.pos)) (valueAt j buf p.pos) else j.ival p.pos)] at hitem
  unfold valueAt at hitem
  split
  · rename_i q hq
    rw [hq] at hitem
    cases hitem
  · exact ⟨_, rfl⟩

theorem turn_some (hshort : longItem (buf p.pos) = false) {c : Scan}
    (hitem : (scanOf p).item (itemTag (buf p.pos)) (valueAt j buf p.pos) = some c) :
    ∃ q, turn j buf p = .ok q ∧ scanOf q = c ∧ q.pos = p.pos + (itemSize (buf p.pos) + 1) ∧ q.err = false := by
  unfold turn
  rw [if_neg (by rw [hshort]; exact Bool.false_ne_true)]
  unfold parseItem
  rw [parseTag_scan (j := j) p _ _ ((data buf (p.pos + 1) (itemSize (buf p.pos))).getD 0)
    (if (data buf (p.pos + 1) (itemSize (buf p.pos))).isSome then signed (itemSize (buf p.pos)) (valueAt j buf p.pos) else j.ival p.pos)] at hitem
  unfold valueAt at hitem
  split
  · rename_i q hq
    rw [hq] at hitem
    exact ⟨_, rfl, some.inj hitem, rfl, rfl⟩
  · rename_i e he
    rw [he] at hitem
    cases hitem

/-- A turn skips a long item, meets a wrong one, finds no memory, or goes on. -/
inductive TurnedIn (A : Allocator) (j : Junk) (buf : ℕ → UInt8) (s : Parsing) : Option Err × Parsing → Prop
  | long (hlong : longItem (buf s.parser.pos) = true) : TurnedIn A j buf s (none, { s with parser := { s.parser with
      pos := s.parser.pos + ((buf (s.parser.pos + 1)).toNat + 1)
      log := s.parser.log ++ [.long (buf (s.parser.pos + 1)).toNat ((buf (s.parser.pos + 1)).toNat + 1)] } })
  | wrong (e : Err) (hshort : longItem (buf s.parser.pos) = false)
      (hitem : (scanOf s.parser).item (itemTag (buf s.parser.pos)) (valueAt j buf s.parser.pos) = none) : TurnedIn A j buf s (some e, s)
  | short {c : Scan} {nodes : List Node} {h : Heap} (hshort : longItem (buf s.parser.pos) = false)
      (hitem : (scanOf s.parser).item (itemTag (buf s.parser.pos)) (valueAt j buf s.parser.pos) = some c)
      (ha : Asked A ((scanOf s.parser).asks (itemTag (buf s.parser.pos))) s.nodes s.heap c.reports.length (false, nodes, h)) :
      TurnedIn A j buf s (some .fail, { s with nodes := nodes, heap := h })
  | next {s' : Parsing} (hshort : longItem (buf s.parser.pos) = false)
      (hitem : (scanOf s.parser).item (itemTag (buf s.parser.pos)) (valueAt j buf s.parser.pos) = some (scanOf s'.parser))
      (ha : Asked A ((scanOf s.parser).asks (itemTag (buf s.parser.pos))) s.nodes s.heap s'.parser.reports.length (true, s'.nodes, s'.heap))
      (hpos : s'.parser.pos = s.parser.pos + (itemSize (buf s.parser.pos) + 1)) (herr : s'.parser.err = false) :
      TurnedIn A j buf s (none, s')

variable (A j buf) in
theorem turnIn_cases (hf : Fits s.parser s.nodes) : TurnedIn A j buf s (turnIn A j buf s) := by
  cases hlong : longItem (buf s.parser.pos) with
  | true =>
    rw [turnIn, itemMemory, if_pos hlong, turn, if_pos hlong]
    exact .long hlong
  | false =>
    cases hitem : (scanOf s.parser).item (itemTag (buf s.parser.pos)) (valueAt j buf s.parser.pos) with
    | none =>
      obtain ⟨e, he⟩ := turn_none hlong hitem
      rw [turnIn, itemMemory_none hitem, he]
      exact .wrong e hlong hitem
    | some c =>
      have hask := asked_itemMemory (A := A) hf s.heap hlong hitem
      obtain ⟨q, hq, rfl, hpos, herr⟩ := turn_some hlong hitem
      have hlen : (scanOf q).reports.length = q.reports.length := length_map ..
      unfold turnIn
      cases hmem : itemMemory A buf s.parser s.nodes s.heap with
      | mk ok r =>
        rw [hmem] at hask
        cases ok with
        | false => exact .short hlong hitem hask
        | true =>
          rw [hlen] at hask
          rw [hq]
          exact (.next hlong hitem hask hpos herr : TurnedIn A j buf s (none, ⟨q, r.1, r.2⟩))

/-- After an item without an error there is a node for each report. -/
theorem TurnedIn.fits (ht : TurnedIn A j buf s (none, s')) (hf : Fits s.parser s.nodes) : Fits s'.parser s'.nodes := by
  cases ht with
  | long hlong => exact hf
  | next hshort hitem ha hpos herr => exact ha.length rfl

/-- A loop ends without an error just when all blocks are there and all items right. -/
structure Looped (A : Allocator) (d : List ℕ × Option Scan) (s : Parsing) (r : Option Err × Parsing) : Prop where
  ends : r.1 = none ↔ (Heap.mallocAll A d.1 s.heap).1 = true ∧ d.2 ≠ none
  scan : r.1 = none → d.2 = some (scanOf r.2.parser)
  nil : r.2.nodes = [] ↔ s.nodes = [] ∧ ∀ n ∈ d.1.head?, (s.heap.malloc A n).1 = none
  err : (s.parser.err = true → s.nodes = []) → r.1 = none → r.2.parser.err = true → r.2.nodes = []

theorem Looped.nothing (s : Parsing) : Looped A ([], some (scanOf s.parser)) s (none, s) :=
  ⟨iff_of_true rfl ⟨rfl, some_ne_none _⟩, fun _ => rfl, (and_iff_left nofun).symm, fun h _ => h⟩

theorem Looped.wrong (e : Err) : Looped A ([], none) s (some e, s) :=
  ⟨iff_of_false nofun fun h => h.2 rfl, nofun, (and_iff_left nofun).symm, nofun⟩

theorem Looped.short {c : Option Scan} {nodes : List Node} {h : Heap}
    (ha : Asked A sizes s.nodes s.heap reports (false, nodes, h)) :
    Looped A (sizes ++ rest, c) s (some .fail, { s with nodes := nodes, heap := h }) := by
  have hfalse : (Heap.mallocAll A sizes s.heap).1 = false := ha.served.symm
  have hall : (Heap.mallocAll A (sizes ++ rest) s.heap).1 = false := by
    rw [Heap.mallocAll_append, hfalse, if_neg Bool.false_ne_true, hfalse]
  refine ⟨iff_of_false nofun fun h => Bool.false_ne_true (hall.symm.trans h.1), nofun, ?_, nofun⟩
  cases sizes with
  | nil => cases hfalse
  | cons n ns => exact ha.nil

theorem Looped.next {c : Option Scan} {r : Option Err × Parsing}
    (ha : Asked A sizes s.nodes s.heap reports (true, s'.nodes, s'.heap)) (herr : s'.parser.err = false)
    (hl : Looped A (rest, c) s' r) : Looped A (sizes ++ rest, c) s r := by
  have htrue : (Heap.mallocAll A sizes s.heap).1 = true := ha.served.symm
  have hheap : s'.heap = (Heap.mallocAll A sizes s.heap).2 := ha.heap
  have hall : Heap.mallocAll A (sizes ++ rest) s.heap = Heap.mallocAll A rest s'.heap := by
    rw [Heap.mallocAll_append, htrue, if_pos rfl, hheap]
  refine ⟨?_, hl.scan, ?_, fun _ => hl.err fun h => absurd (herr.symm.trans h) Bool.false_ne_true⟩
  · rw [hall]
    exact hl.ends
  · have hnil := ha.nil
    rw [hl.nil, hnil]
    cases sizes with
    | nil =>
      have hsame : s'.heap = s.heap := hheap
      rw [hsame, nil_append]
      exact and_congr_left' (and_iff_left nofun)
    | cons n ns =>
      -- the first block is there
      have hfirst : (s.heap.malloc A n).1 ≠ none := by
        intro hnone
        rw [Heap.mallocAll_none hnone] at htrue
        cases htrue
      exact iff_of_false (fun h => hfirst (h.1.2 n rfl)) fun h => hfirst (h.2 n rfl)

/-- **The loop** and what the items ask for. -/
theorem loopIn_spec : ∀ (n : ℕ) (s : Parsing), Fits s.parser s.nodes →
    Looped A (demand (scanOf s.parser) (items j buf len n s.parser.pos)) s (loopIn A j buf len n s)
  | 0, s, _ => .nothing s
  | n + 1, s, hf => by
    unfold loopIn items
    by_cases hlt : s.parser.pos < len
    · rw [if_pos hlt, if_pos hlt]
      have ht := turnIn_cases A j buf hf
      cases hr : turnIn A j buf s with
      | mk e s' =>
        rw [hr] at ht
        have ih := fun hf' => loopIn_spec n s' hf'
        cases ht with
        | long hlong =>
          rw [if_pos hlong]
          have hl := ih hf
          exact ⟨hl.ends, hl.scan, hl.nil, hl.err⟩
        | wrong e hshort hitem =>
          unfold valueAt at hitem
          rw [if_neg (by rw [hshort]; exact Bool.false_ne_true), demand, hitem]
          exact .wrong e
        | short hshort hitem ha =>
          unfold valueAt at hitem
          rw [if_neg (by rw [hshort]; exact Bool.false_ne_true), demand, hitem]
          exact .short ha
        | next hshort hitem ha hpos herr =>
          unfold valueAt at hitem
          have hl := ih (ha.length rfl)
          rw [hpos] at hl
          rw [if_neg (by rw [hshort]; exact Bool.false_ne_true), demand, hitem]
          exact .next ha herr hl
    · rw [if_neg hlt, if_neg hlt]
      exact .nothing s

/-! ### Whose the blocks are -/

/-- The blocks of a report. -/
def Node.blocks (x : Node) : List Block := ⟨x.block, reportBytes⟩ :: x.usages.map (⟨·, usageBytes⟩)

/-- All blocks in use are those of the reports, and those from before. -/
structure Owned (h₀ : Heap) (nodes : List Node) (h : Heap) : Prop where
  ok : h.Ok
  live : h.live.Perm (nodes.flatMap Node.blocks ++ h₀.live)
  strays : h.strays = h₀.strays

variable {h₀ h : Heap} {nodes : List Node}

theorem Owned.malloc (ho : Owned h₀ nodes h) {size : ℕ} (hs : 0 < size) :
    (∃ a, (h.malloc A size).1 = some a ∧ (h.malloc A size).2.Ok ∧
      (h.malloc A size).2.live.Perm (⟨a, size⟩ :: (nodes.flatMap Node.blocks ++ h₀.live)) ∧ (h.malloc A size).2.strays = h₀.strays) ∨
    (h.malloc A size).1 = none ∧ Owned h₀ nodes (h.malloc A size).2 := by
  rcases Heap.malloc_cases A size h with ⟨a, hsome, -, hpick, hw⟩ | ⟨hnone, hw⟩
  · rw [hw]
    exact .inl ⟨a, hsome, ho.ok.malloc hs hpick, ho.live.cons _, ho.strays⟩
  · rw [hw]
    exact .inr ⟨hnone, ⟨ho.ok.inside, ho.ok.apart⟩, ho.live, ho.strays⟩

theorem Owned.getNode (ho : Owned h₀ nodes h) (p : Parser) (type : UInt8) :
    Owned h₀ (getNode A p type nodes h).2.1 (getNode A p type nodes h).2.2 := by
  by_cases hk : (scanOf p).known type = true
  · rw [getNode_known hk]
    exact ho
  · rcases ho.malloc (A := A) (by decide : 0 < reportBytes) with ⟨a, hm, hok, hlive, hstrays⟩ | ⟨hm, ho'⟩
    · rw [getNode_some hk nodes hm]
      exact ⟨hok, hlive, hstrays⟩
    · rw [getNode_none hk nodes hm]
      exact ho'

theorem blocks_modify (a : ℕ) : ∀ (nodes : List Node) (k : ℕ), k < nodes.length →
    ((nodes.modify k fun x => { x with usages := x.usages ++ [a] }).flatMap Node.blocks).Perm
      (⟨a, usageBytes⟩ :: nodes.flatMap Node.blocks)
  | [], _, hk => absurd hk (Nat.not_lt_zero _)
  | x :: xs, 0, _ => by
    have hx : Node.blocks { x with usages := x.usages ++ [a] } = x.blocks ++ [⟨a, usageBytes⟩] := by
      simp [Node.blocks]
    rw [modify_zero_cons, flatMap_cons, flatMap_cons, hx, append_assoc, singleton_append]
    exact perm_middle
  | x :: xs, k + 1, hk => by
    have ih := blocks_modify a xs k (Nat.lt_of_succ_lt_succ hk)
    rw [modify_succ_cons, flatMap_cons, flatMap_cons]
    exact (ih.append_left x.blocks).trans perm_middle

theorem Owned.addUsages {k : ℕ} : ∀ (n : ℕ) {nodes : List Node} {h : Heap}, Owned h₀ nodes h → k < nodes.length →
    Owned h₀ (addUsages A k n nodes h).2.1 (addUsages A k n nodes h).2.2
  | 0, _, _, ho, _ => ho
  | n + 1, nodes, h, ho, hk => by
    unfold Vsfhid.addUsages
    rw [← Prod.mk.eta (p := h.malloc A usageBytes)]
    rcases ho.malloc (A := A) (by decide : 0 < usageBytes) with ⟨a, hm, hok, hlive, hstrays⟩ | ⟨hm, ho'⟩
    · rw [hm]
      have hnodes := (blocks_modify a nodes k hk).append_right h₀.live
      exact addUsages n ⟨hok, hlive.trans hnodes.symm, hstrays⟩ (by rw [length_modify]; exact hk)
    · rw [hm]
      exact ho'

theorem getReport_lt (hf : Fits p nodes) {type : UInt8} {r : List Node × Heap} (hr : getNode A p type nodes h = (true, r)) :
    (getReport p.reports p.desc type).1.length < r.1.length := by
  obtain ⟨pre, x, post, hg⟩ : ∃ pre x post, getReport p.reports p.desc type = (pre, x, post) := ⟨_, _, _, rfl⟩
  have hlen : nodes.length = p.reports.length := hf
  rw [hg]
  rcases known_cases hg with ⟨hk, heq⟩ | ⟨hk, rfl, -, -⟩
  · rw [getNode_known hk] at hr
    obtain rfl := (Prod.mk.inj hr).2
    rw [heq, length_append, length_cons] at hlen
    dsimp only
    omega
  · cases hm : (h.malloc A reportBytes).1 with
    | none =>
      rw [getNode_none hk nodes hm] at hr
      cases hr
    | some a =>
      rw [getNode_some hk nodes hm] at hr
      obtain rfl := (Prod.mk.inj hr).2
      exact Nat.succ_pos _

theorem Owned.itemMemory (ho : Owned h₀ nodes h) {p : Parser} (hf : Fits p nodes) :
    Owned h₀ (itemMemory A buf p nodes h).2.1 (itemMemory A buf p nodes h).2.2 := by
  unfold Vsfhid.itemMemory
  dsimp only
  split_ifs with hlong hin hfeature
  · exact ho
  · have hget := ho.getNode (A := A) p (itemTag (buf p.pos))
    cases hr : Vsfhid.getNode A p (itemTag (buf p.pos)) nodes h with
    | mk ok r =>
      rw [hr] at hget
      cases ok with
      | false => exact hget
      | true => exact Owned.addUsages _ hget (getReport_lt hf hr)
  · exact ho.getNode p _
  · exact ho

theorem Owned.turnIn (ho : Owned h₀ s.nodes s.heap) (hf : Fits s.parser s.nodes) :
    Owned h₀ (turnIn A j buf s).2.nodes (turnIn A j buf s).2.heap := by
  have hmem : Owned h₀ (Vsfhid.itemMemory A buf s.parser s.nodes s.heap).2.1 (Vsfhid.itemMemory A buf s.parser s.nodes s.heap).2.2 :=
    ho.itemMemory hf
  unfold Vsfhid.turnIn
  cases hr : Vsfhid.itemMemory A buf s.parser s.nodes s.heap with
  | mk ok r =>
    rw [hr] at hmem
    cases ok with
    | false => exact hmem
    | true =>
      cases turn j buf s.parser with
      | ok q => exact hmem
      | error e => exact hmem

theorem Owned.loopIn : ∀ (n : ℕ) {s : Parsing}, Owned h₀ s.nodes s.heap → Fits s.parser s.nodes →
    Owned h₀ (loopIn A j buf len n s).2.nodes (loopIn A j buf len n s).2.heap
  | 0, _, ho, _ => ho
  | n + 1, s, ho, hf => by
    unfold Vsfhid.loopIn
    by_cases hlt : s.parser.pos < len
    · rw [if_pos hlt]
      have hstep : Owned h₀ (Vsfhid.turnIn A j buf s).2.nodes (Vsfhid.turnIn A j buf s).2.heap := ho.turnIn hf
      cases ht : Vsfhid.turnIn A j buf s with
      | mk e s' =>
        rw [ht] at hstep
        cases e with
        | none =>
          have hcases := turnIn_cases A j buf hf
          rw [ht] at hcases
          exact Owned.loopIn n hstep (hcases.fits hf)
        | some e => exact hstep
    · rw [if_neg hlt]
      exact ho

/-! ### Giving back -/

/-- The blocks of a report, and the addresses they are given back by, in order. -/
def Node.frees (x : Node) : List (Block × ℕ) :=
  x.usages.map (fun u => (⟨u, usageBytes⟩, u + usageList)) ++ [(⟨x.block, reportBytes⟩, x.block)]

theorem freeDev_eq : ∀ (nodes : List Node) (h : Heap),
    freeDev nodes h = ((nodes.flatMap Node.frees).map Prod.snd).foldl (fun h p => h.freeIn p) h
  | [], _ => rfl
  | x :: xs, h => by
    have ih := freeDev_eq xs ((x.usages.foldl (fun h u => h.freeIn (u + usageList)) h).freeIn x.block)
    have hx : x.frees.map Prod.snd = x.usages.map (· + usageList) ++ [x.block] := by
      rw [Node.frees, map_append, List.map_map]
      rfl
    have husages : (x.usages.map (· + usageList)).foldl (fun h p => h.freeIn p) h = x.usages.foldl (fun h u => h.freeIn (u + usageList)) h :=
      foldl_map
    rw [freeDev, ih, flatMap_cons, map_append, foldl_append, hx, foldl_append, husages]
    rfl

theorem perm_frees : ∀ nodes : List Node, ((nodes.flatMap Node.frees).map Prod.fst).Perm (nodes.flatMap Node.blocks)
  | [] => .refl _
  | x :: xs => by
    have hx : (x.frees.map Prod.fst).Perm x.blocks := by
      rw [Node.frees, map_append, List.map_map]
      exact perm_append_singleton _ _
    rw [flatMap_cons, flatMap_cons, map_append]
    exact hx.append (perm_frees xs)

theorem mem_frees {x : Block × ℕ} (hx : x ∈ nodes.flatMap Node.frees) : x.1.addr ≤ x.2 ∧ x.2 < x.1.addr + x.1.size := by
  obtain ⟨y, -, hy⟩ := mem_flatMap.mp hx
  rcases mem_append.mp hy with hu | hr
  · obtain ⟨u, -, rfl⟩ := List.mem_map.mp hu
    exact ⟨Nat.le_add_right .., Nat.add_lt_add_left (by decide : usageList < usageBytes) _⟩
  · obtain rfl := mem_singleton.mp hr
    exact ⟨le_rfl, Nat.lt_add_of_pos_right (by decide : 0 < reportBytes)⟩

/-- **All is given back once**: the description, the reports, their usages. -/
theorem Owned.freeDev {h₁ : Heap} {d : ℕ} (ho : Owned h₁ nodes h) (hlive : h₁.live = ⟨d, descBytes⟩ :: h₀.live) (hstrays : h₁.strays = h₀.strays) :
    (∀ b, b ∈ (freeDev nodes (h.freeIn d)).live ↔ b ∈ h₀.live) ∧ (freeDev nodes (h.freeIn d)).strays = h₀.strays := by
  have hblocks : (((⟨d, descBytes⟩, d) :: nodes.flatMap Node.frees).map Prod.fst).Perm (⟨d, descBytes⟩ :: nodes.flatMap Node.blocks) :=
    (perm_frees nodes).cons _
  have hall : h.live.Perm (((⟨d, descBytes⟩, d) :: nodes.flatMap Node.frees).map Prod.fst ++ h₀.live) := by
    have hmid : (nodes.flatMap Node.blocks ++ h₁.live).Perm (⟨d, descBytes⟩ :: nodes.flatMap Node.blocks ++ h₀.live) := by
      rw [hlive]
      exact perm_middle
    exact (ho.live.trans hmid).trans (hblocks.symm.append_right _)
  have hin : ∀ x ∈ (⟨d, descBytes⟩, d) :: nodes.flatMap Node.frees, x.1.addr ≤ x.2 ∧ x.2 < x.1.addr + x.1.size := by
    intro x hx
    rcases mem_cons.mp hx with rfl | hx
    · exact ⟨le_rfl, Nat.lt_add_of_pos_right (by decide : 0 < descBytes)⟩
    · exact mem_frees hx
  obtain ⟨hmem, hstr⟩ := ho.ok.foldl_freeIn_own hall hin
  rw [map_cons, foldl_cons, ← freeDev_eq] at hmem hstr
  exact ⟨hmem, hstr.trans (ho.strays.trans hstrays)⟩

/-! ### A descriptor that is refused -/

theorem parseReportIn_none (hm : (h.malloc A descBytes).1 = none) :
    parseReportIn A j buf len dev h = (some .fail, dev, (h.malloc A descBytes).2) := by
  rw [parseReportIn, ← Prod.mk.eta (p := h.malloc A descBytes), hm]

/-- The loop, with the description at `d`. -/
def looped (A : Allocator) (j : Junk) (buf : ℕ → UInt8) (len : ℕ) (h : Heap) : Option Err × Parsing :=
  loopIn A j buf len len ⟨Parser.init j, [], (h.malloc A descBytes).2⟩

theorem parseReportIn_some {d : ℕ} (hm : (h.malloc A descBytes).1 = some d) : parseReportIn A j buf len dev h =
      if (looped A j buf len h).2.parser.desc.collection ≠ 0 ∨ (looped A j buf len h).1 ≠ none ∨ (looped A j buf len h).2.parser.err = true then
        (some .fail, (looped A j buf len h).2.nodes, freeDev (looped A j buf len h).2.nodes ((looped A j buf len h).2.heap.freeIn d))
      else (none, (looped A j buf len h).2.nodes, (looped A j buf len h).2.heap.freeIn d) := by
  rw [parseReportIn, ← Prod.mk.eta (p := h.malloc A descBytes), hm]
  rfl

theorem looped_spec (A : Allocator) (j : Junk) (buf : ℕ → UInt8) (len : ℕ) (h : Heap) :
    Looped A (demandOf j buf len) ⟨Parser.init j, [], (h.malloc A descBytes).2⟩ (looped A j buf len h) :=
  loopIn_spec len ⟨Parser.init j, [], (h.malloc A descBytes).2⟩ rfl

/-- **All memory is given back**, whenever a descriptor is refused. -/
theorem freed_of_refused (hok : h.Ok) (hr : (parseReportIn A j buf len dev h).1 ≠ none) :
    (∀ b, b ∈ (parseReportIn A j buf len dev h).2.2.live ↔ b ∈ h.live) ∧ (parseReportIn A j buf len dev h).2.2.strays = h.strays := by
  rcases Heap.malloc_cases A descBytes h with ⟨d, hm, hpos, hpick, hw⟩ | ⟨hm, hw⟩
  · have hstart : Owned (h.malloc A descBytes).2 [] (h.malloc A descBytes).2 :=
      ⟨by rw [hw]; exact hok.malloc hpos hpick, .refl _, rfl⟩
    have ho : Owned (h.malloc A descBytes).2 (looped A j buf len h).2.nodes (looped A j buf len h).2.heap :=
      Owned.loopIn len hstart rfl
    rw [parseReportIn_some hm] at hr ⊢
    split_ifs at hr ⊢ with hbad
    · exact ho.freeDev (by rw [hw]) (by rw [hw])
    · exact absurd rfl hr
  · rw [parseReportIn_none hm, hw]
    exact ⟨fun _ => Iff.rfl, rfl⟩

theorem balanced_of_looped (hl : (looped A j buf len h).1 = none) (hdepth : (looped A j buf len h).2.parser.desc.collection = 0) :
    Balanced j buf len :=
  ⟨_, (looped_spec A j buf len h).scan hl, hdepth⟩

/-- **A descriptor that is refused** leaves no reports, and one accepted is right, just when no first report
is made unless all goes well. -/
theorem safe_iff (hok : h.Ok) (dev : List Node) : Safe A j buf len dev h ↔ SafeWhen A j buf len dev h := by
  have hfreed : (parseReportIn A j buf len dev h).1 ≠ none → _ := freed_of_refused hok
  cases hm : (h.malloc A descBytes).1 with
  | none =>
    have hr : parseReportIn A j buf len dev h = _ := parseReportIn_none hm
    constructor
    · intro hs
      refine ⟨fun _ => ?_, fun hne => absurd hm hne⟩
      have hempty := hs.empty
      rw [hr] at hempty
      exact hempty nofun
    · intro hw
      refine ⟨?_, hfreed, fun _ => ?_⟩
      · rw [hr]
        exact nofun
      · rw [hr]
        exact hw.desc hm
  | some d =>
    have hr : parseReportIn A j buf len dev h = _ := parseReportIn_some hm
    have hl := looped_spec A j buf len h
    constructor
    · intro hs
      refine ⟨fun hnone => absurd (hm.symm.trans hnone) (some_ne_none d), fun _ n hn hfirst => ?_⟩
      have hnodes : (looped A j buf len h).2.nodes ≠ [] := fun hnil => hfirst ((hl.nil.mp hnil).2 n hn)
      have hempty := hs.empty
      rw [hr] at hempty
      split_ifs at hempty with hbad
      · exact absurd (hempty nofun) hnodes
      · obtain ⟨hdepth, hnone, -⟩ := not_or.mp hbad |>.imp_right not_or.mp
        have hnone' := not_not.mp hnone
        exact ⟨(hl.ends.mp hnone').1, balanced_of_looped hnone' (not_not.mp hdepth)⟩
    · intro hw
      refine ⟨?_, hfreed, ?_⟩
      · rw [hr]
        split_ifs with hbad
        · exact nofun
        · obtain ⟨hdepth, hnone, -⟩ := not_or.mp hbad |>.imp_right not_or.mp
          exact fun _ => balanced_of_looped (not_not.mp hnone) (not_not.mp hdepth)
      · rw [hr]
        split_ifs with hbad
        · intro _
          by_contra hnodes
          -- a first report was made, so all went well
          have hfirst : ∃ n ∈ (demandOf j buf len).1.head?, ((h.malloc A descBytes).2.malloc A n).1 ≠ none := by
            by_contra hno
            refine hnodes (hl.nil.mpr ⟨rfl, fun n hn => ?_⟩)
            by_contra hne
            exact hno ⟨n, hn, hne⟩
          obtain ⟨n, hn, hne⟩ := hfirst
          obtain ⟨hall, c, hc, hdepth⟩ := hw.all (by rw [hm]; exact some_ne_none d) n hn hne
          have hnone := hl.ends.mpr ⟨hall, by rw [hc]; exact some_ne_none c⟩
          have hscan := some.inj (hc.symm.trans (hl.scan hnone))
          rcases hbad with hopen | hfail | herr
          · rw [hscan] at hdepth
            exact hopen hdepth
          · exact hfail hnone
          · exact hnodes (hl.err (fun _ => rfl) hnone herr)
        · exact fun hne => absurd rfl hne

/-- Memory for every call. -/
def plenty : Allocator := .placed fun n => 0x1000 + 0x100 * n

theorem safe_iff_joystick : Safe plenty zeros joystick 15 [] .empty := by
  refine (safe_iff Heap.Ok.empty []).mpr ⟨fun _ => rfl, fun _ _ _ _ => ?_⟩
  obtain ⟨hall, hend⟩ : (Heap.mallocAll plenty (demandOf zeros joystick 15).1 (Heap.empty.malloc plenty descBytes).2).1 = true ∧
      (demandOf zeros joystick 15).2.map Scan.depth = some 0 := by
    decide +kernel
  exact ⟨hall, map_eq_some_iff.mp hend⟩

/-- **Without the end of its collection** it is refused, and its report is still in the list. -/
theorem safe_open : ¬∀ (A : Allocator) (j : Junk) (buf : ℕ → UInt8) (len : ℕ) (dev : List Node) (h : Heap), h.Ok → Safe A j buf len dev h := by
  intro hall
  have hrun : ((parseReportIn plenty zeros joystick 14 [] .empty).1.isSome &&
      (parseReportIn plenty zeros joystick 14 [] .empty).2.1 != []) = true := by
    decide +kernel
  obtain ⟨hfail, hlist⟩ := Bool.and_eq_true_iff.mp hrun
  have hempty := (hall plenty zeros joystick 14 [] .empty Heap.Ok.empty).empty (isSome_iff_ne_none.mp hfail)
  rw [hempty] at hlist
  exact Bool.false_ne_true hlist

end Vsfhid
end Vsf
