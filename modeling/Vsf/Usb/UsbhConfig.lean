/-
# The configuration of a device

`vsfusbh_parse_config` goes over the descriptors behind a configuration's, twice for each interface:
it counts the settings, allocates an array for them, goes back, and fills it in. A descriptor of 0
bytes is looked at forever, a short one is read behind the block, and too many interfaces or settings
are written outside the arrays. For nothing counted `vsf_bufmgr_malloc` gives `NULL`, and the parse
ends. Not covered: what the class drivers are asked afterwards.
-/
import Mathlib
import Vsf.Lib.ByteMem
import Vsf.Lib.Loop

namespace Vsf

open ByteMem List Function

/-- `struct vsfusbh_ifs_alt_t`; where a pointer points is an offset in the block. -/
structure UsbhAlt where
  ifsDesc : Option ℕ
  epDesc : Option ℕ
  descSize : UInt16
  deriving DecidableEq

/-- What `struct vsfusbh_ifs_t` has of its settings. -/
structure UsbhIfs where
  numOfAlt : UInt8
  alt : Option (List UsbhAlt)
  deriving DecidableEq

namespace UsbhConfig

/-- `USB_DT_CONFIG`, `USB_DT_INTERFACE` and `USB_DT_ENDPOINT`. -/
def dtConfig : UInt8 := 2
def dtInterface : UInt8 := 4
def dtEndpoint : UInt8 := 5

/-- What the loop has: `pos` is `header`, `alt` the index behind `alt`, `table` is `dev->config.ifs`. -/
structure Scan where
  pos : ℕ
  size : ℕ
  ifs : ℕ
  ifnum : UInt8
  claiming : ℕ
  alt : Option ℕ
  tmpsize : ℕ
  tmppos : ℕ
  table : ℕ → UsbhIfs
  epMpsIn : ℕ → UInt16
  epMpsOut : ℕ → UInt16

/-- Its ends: an access outside, no change, no `ifs`, no `alt`, or the block's end. -/
inductive ParseEnd
  | fault
  | notConfig
  | noIfs
  | noAlt (s : Scan)
  | parsed (s : Scan)

/-- The block, and which of the arrays gets memory. -/
structure Block where
  mem : Mem
  ifsFits : Bool
  altFits : ℕ → Bool

def noSetting : UsbhAlt := { ifsDesc := none, epDesc := none, descSize := 0 }

namespace Block

variable (b : Block)

def len (p : ℕ) : ℕ := (b.mem p).toNat
def type (p : ℕ) : UInt8 := b.mem (p + 1)
def number (p : ℕ) : UInt8 := b.mem (p + 2)

/-- `wTotalLength` and `bNumInterfaces`. -/
def total : ℕ := load16 b.mem 2
def num : ℕ := (b.mem 4).toNat

def isInterface (p : ℕ) : Bool := b.type p = dtInterface
def isEndpoint (p : ℕ) : Bool := b.type p = dtEndpoint

end Block

/-- `vsf_bufmgr_malloc` for `n` entries: 0 bytes get none. -/
def malloc (fits : Bool) (n : ℕ) : Bool := fits && decide (n ≠ 0)

@[simp] theorem malloc_zero (fits : Bool) : malloc fits 0 = false := by
  simp [malloc]

/-- `alloc_alt`. -/
def allocAlt (b : Block) (s : Scan) : ParseEnd ⊕ Scan :=
  if b.num ≤ s.ifs then .inl .fault
  else if malloc (b.altFits s.ifs) (s.table s.ifs).numOfAlt.toNat then
    let ifs : UsbhIfs := { s.table s.ifs with alt := some (List.replicate (s.table s.ifs).numOfAlt.toNat noSetting) }
    .inr { s with
      table := Function.update s.table s.ifs ifs
      claiming := 2
      alt := some 0
      size := s.tmpsize
      pos := s.tmppos }
  else .inl (.noAlt s)

/-- `desc_size` of one setting, where `ifs_desc` is `p`. -/
def setSize (alts : List UsbhAlt) (i p : ℕ) : List UsbhAlt :=
  alts.modify i fun a => { a with descSize := UInt16.ofNat (p - a.ifsDesc.getD 0) }

/-- `probe_alt`, where `ifs_desc` is `p`. -/
def probeAlt (s : Scan) (p : ℕ) : ParseEnd ⊕ Scan :=
  match s.alt, (s.table s.ifs).alt with
  | some (i + 1), some alts =>
    .inr { s with
      table := Function.update s.table s.ifs { s.table s.ifs with alt := some (setSize alts i p) }
      alt := none
      claiming := if 0 < s.size then 1 else 0
      ifs := s.ifs + 1
      ifnum := s.ifnum + 1
      tmpsize := s.size
      tmppos := s.pos }
  | _, _ => .inl .fault

/-- The end of the block ends the pass for the last interface. -/
def settle (b : Block) (s : Scan) : ParseEnd ⊕ Scan :=
  if s.size = 0 ∧ s.claiming ≠ 0 then if s.claiming = 1 then allocAlt b s else probeAlt s s.pos
  else .inr s

/-- To the next header. -/
def advance (b : Block) (s : Scan) : Scan := { s with size := s.size - b.len s.pos, pos := s.pos + b.len s.pos }

/-- `if (alt > ifs->alt) alt[-1].desc_size = …; (++alt)->ifs_desc = ifs_desc`, at `p`. -/
def nextSetting (alts : List UsbhAlt) (i p : ℕ) : List UsbhAlt :=
  (if 2 ≤ i then setSize alts (i - 2) p else alts).modify i fun a => { a with ifsDesc := some p }

/-- `if (!alt->ep_desc) alt->ep_desc = ep_desc`. -/
def firstEndpoint (alts : List UsbhAlt) (i p : ℕ) : List UsbhAlt :=
  alts.modify i fun a => if a.epDesc = none then { a with epDesc := some p } else a

/-- What an endpoint's descriptor says of its packets. -/
def packetSize (b : Block) (s : Scan) : Scan :=
  let epaddr := (b.number s.pos &&& 0x0f).toNat
  let epsize := UInt16.ofNat (load16 b.mem (s.pos + 4))
  if b.number s.pos &&& 0x80 ≠ 0 then
    if s.epMpsIn epaddr < epsize then { s with epMpsIn := Function.update s.epMpsIn epaddr epsize } else s
  else if s.epMpsOut epaddr < epsize then { s with epMpsOut := Function.update s.epMpsOut epaddr epsize }
  else s

/-- The settings of the interface that is filled in, and `alt` at `i - 1`. -/
def putAlts (s : Scan) (alts : List UsbhAlt) (i : ℕ) : Scan :=
  { s with table := Function.update s.table s.ifs { s.table s.ifs with alt := some alts }, alt := some i }

/-- `ifs->num_of_alt++`. -/
def countAlt (s : Scan) : Scan :=
  { s with table := Function.update s.table s.ifs { s.table s.ifs with numOfAlt := (s.table s.ifs).numOfAlt + 1 } }

def interface (b : Block) (s : Scan) : ParseEnd ⊕ Scan :=
  match (s.table s.ifs).alt with
  | none => if b.number s.pos = s.ifnum then settle b (advance b (countAlt s)) else allocAlt b s
  | some alts =>
    if b.number s.pos = s.ifnum then
      match s.alt with
      | some i =>
        if i < alts.length then settle b (advance b (putAlts s (nextSetting alts i s.pos) (i + 1))) else .inl .fault
      | none => .inl .fault
    else probeAlt s s.pos

def endpoint (b : Block) (s : Scan) : ParseEnd ⊕ Scan :=
  match s.alt, (s.table s.ifs).alt with
  | some (i + 1), some alts => settle b (advance b (packetSize b (putAlts s (firstEndpoint alts i s.pos) (i + 1))))
  | none, _ => settle b (advance b (packetSize b s))
  | _, _ => .inl .fault

/-- A turn of the loop. -/
def next (b : Block) (s : Scan) : ParseEnd ⊕ Scan :=
  if s.size = 0 then .inl (.parsed s)
  else if b.total ≤ s.pos then .inl .fault
  else if s.size < b.len s.pos then .inl (.parsed s)
  else if b.total ≤ s.pos + 1 then .inl .fault
  else if b.isInterface s.pos then
    if b.total ≤ s.pos + 2 ∨ b.num ≤ s.ifs then .inl .fault else interface b s
  else if b.isEndpoint s.pos then
    if b.total ≤ s.pos + 5 then .inl .fault else endpoint b s
  else settle b (advance b s)

/-- At the first descriptor behind the configuration's. -/
def scanStart (b : Block) (epMpsIn epMpsOut : ℕ → UInt16) : Scan where
  pos := b.len 0
  size := b.total - b.len 0
  ifs := 0
  ifnum := 0
  claiming := if b.isInterface (b.len 0) then 1 else 0
  alt := none
  tmpsize := b.total - b.len 0
  tmppos := b.len 0
  table := fun _ => { numOfAlt := 0, alt := none }
  epMpsIn := epMpsIn
  epMpsOut := epMpsOut

/-- Up to the loop. -/
def parseStart (b : Block) (epMpsIn epMpsOut : ℕ → UInt16) : ParseEnd ⊕ Scan :=
  if b.total ≤ 3 then .inl .fault
  else if b.type 0 ≠ dtConfig then .inl .notConfig
  else if b.total ≤ 4 then .inl .fault
  else if ¬malloc b.ifsFits b.num then .inl .noIfs
  else if b.total ≤ b.len 0 + 1 then .inl .fault
  else .inr (scanStart b epMpsIn epMpsOut)

/-- `vsfusbh_parse_config` up to `// probe`, with so many turns. -/
def parseConfig (b : Block) (epMpsIn epMpsOut : ℕ → UInt16) (fuel : ℕ) : Option ParseEnd :=
  match parseStart b epMpsIn epMpsOut with
  | .inl r => some r
  | .inr s => Loop.run (next b) fuel s

/-! ### The descriptors of the block -/

/-- The descriptors from `p` on, one behind the other, and where they stop. -/
def descs (b : Block) : ℕ → ℕ → List ℕ × ℕ
  | 0, p => ([], p)
  | fuel + 1, p =>
    if 0 < b.len p ∧ p + b.len p ≤ b.total then
      let r := descs b fuel (p + b.len p)
      (p :: r.1, r.2)
    else ([], p)

/-- What is read of a descriptor is in the block. -/
def Inside (b : Block) (p : ℕ) : Prop :=
  p + 1 < b.total ∧ (b.isInterface p → p + 2 < b.total) ∧ (b.isEndpoint p → p + 5 < b.total)

instance (b : Block) (p : ℕ) : Decidable (Inside b p) := inferInstanceAs (Decidable (_ ∧ _ ∧ _))

/-- The descriptors between two places. -/
inductive Walk (b : Block) : ℕ → List ℕ → ℕ → Prop
  | nil (p : ℕ) : Walk b p [] p
  | cons {p q : ℕ} {ds : List ℕ} (hlen : 0 < b.len p) (hend : p + b.len p ≤ b.total) (hw : Walk b (p + b.len p) ds q) :
      Walk b p (p :: ds) q

variable {b : Block} {s s' : Scan} {p q k c i : ℕ} {ds g rest : List ℕ} {alts : List UsbhAlt} {r : ParseEnd}

theorem descs_walk : ∀ fuel {p : ℕ}, p ≤ b.total → b.total - p ≤ fuel →
    Walk b p (descs b fuel p).1 (descs b fuel p).2 ∧ (descs b fuel p).2 ≤ b.total ∧
      ((descs b fuel p).2 = b.total ∨ b.len (descs b fuel p).2 = 0 ∨ b.total < (descs b fuel p).2 + b.len (descs b fuel p).2)
  | 0, p, hp, hfuel => ⟨.nil p, hp, .inl (show p = b.total by omega)⟩
  | fuel + 1, p, hp, hfuel => by
    unfold descs
    by_cases h : 0 < b.len p ∧ p + b.len p ≤ b.total
    · rw [if_pos h]
      obtain ⟨hw, hrest⟩ := descs_walk fuel h.2 (by omega)
      exact ⟨.cons h.1 h.2 hw, hrest⟩
    · rw [if_neg h]
      exact ⟨.nil p, hp, .inr (show b.len p = 0 ∨ b.total < p + b.len p by omega)⟩

theorem Walk.le (h : Walk b p ds q) : p ≤ q := by
  induction h with
  | nil => exact le_refl _
  | cons hlen _ _ ih => omega

theorem Walk.end_le (h : Walk b p ds q) (hp : p ≤ b.total) : q ≤ b.total := by
  induction h with
  | nil => exact hp
  | cons _ hend _ ih => exact ih hend

theorem Walk.split : ∀ {g : List ℕ} {p : ℕ}, Walk b p (g ++ rest) q → ∃ j, Walk b p g j ∧ Walk b j rest q
  | [], p, h => ⟨p, .nil p, h⟩
  | _ :: g, _, h => by
    cases h with
    | cons hlen hend hw =>
      obtain ⟨j, hg, hrest⟩ := Walk.split hw
      exact ⟨j, .cons hlen hend hg, hrest⟩

/-! ### The two passes -/

/-- The pass that counts, at `p`, has seen `c` settings of the interface `k`. -/
structure First (b : Block) (s : Scan) (k c p : ℕ) : Prop where
  pos : s.pos = p
  size : s.size = b.total - p
  ifs : s.ifs = k
  ifnum : s.ifnum = UInt8.ofNat k
  alt : s.alt = none
  entry : s.table k = { numOfAlt := UInt8.ofNat c, alt := none }
  later : ∀ j, k < j → s.table j = { numOfAlt := 0, alt := none }

/-- The pass that fills in, when `alts` is what it has and `alt` is at `i - 1`. -/
structure Second (b : Block) (s : Scan) (k c : ℕ) (alts : List UsbhAlt) (i p : ℕ) : Prop where
  pos : s.pos = p
  size : s.size = b.total - p
  ifs : s.ifs = k
  ifnum : s.ifnum = UInt8.ofNat k
  claiming : s.claiming = 2
  alt : s.alt = some i
  entry : s.table k = { numOfAlt := UInt8.ofNat c, alt := some alts }
  later : ∀ j, k < j → s.table j = { numOfAlt := 0, alt := none }

/-- What a pass leaves alone. -/
structure Kept (s s' : Scan) (k : ℕ) : Prop where
  claiming : s'.claiming = s.claiming
  tmpsize : s'.tmpsize = s.tmpsize
  tmppos : s'.tmppos = s.tmppos
  table : ∀ j, j ≠ k → s'.table j = s.table j

theorem Kept.refl : Kept s s k := ⟨rfl, rfl, rfl, fun _ _ => rfl⟩

theorem Kept.trans {s'' : Scan} (h : Kept s s' k) (h' : Kept s' s'' k) : Kept s s'' k :=
  ⟨h'.claiming.trans h.claiming, h'.tmpsize.trans h.tmpsize, h'.tmppos.trans h.tmppos, fun j hj => (h'.table j hj).trans (h.table j hj)⟩

/-- The descriptors of one interface: another interface's is not among them. -/
def Plain (b : Block) (k : ℕ) (g : List ℕ) : Prop := ∀ d ∈ g, b.isInterface d → b.number d = UInt8.ofNat k

/-- How many settings there are. -/
def count (b : Block) (g : List ℕ) : ℕ := g.countP b.isInterface

/-- There is memory for the array of `c` settings; their number is a byte. -/
abbrev granted (b : Block) (k c : ℕ) : Bool := malloc (b.altFits k) (UInt8.ofNat c).toNat

@[simp] theorem granted_zero (k : ℕ) : granted b k 0 = false := malloc_zero _

/-- The array before the second pass. -/
abbrev blank (c : ℕ) : List UsbhAlt := List.replicate (UInt8.ofNat c).toNat noSetting

theorem settle_more (h : s.size ≠ 0 ∨ s.claiming = 0) : settle b s = .inr s := by
  apply if_neg
  rintro ⟨hsize, hclaim⟩
  exact h.elim (· hsize) hclaim

theorem not_endpoint (h : b.isInterface p) : b.isEndpoint p = false := by
  unfold Block.isEndpoint
  rw [of_decide_eq_true h]
  rfl

/-- A turn at a descriptor that is in the block. -/
theorem next_inside (hpos : s.pos = p) (hsize : s.size = b.total - p) (hend : p + b.len p ≤ b.total)
    (hin : Inside b p) : next b s =
      if b.isInterface p then if b.num ≤ s.ifs then .inl .fault else interface b s
      else if b.isEndpoint p then endpoint b s else settle b (advance b s) := by
  obtain ⟨h1, h2, h5⟩ := hin
  unfold next
  rw [hpos, hsize, if_neg (by omega), if_neg (by omega), if_neg (by omega), if_neg (by omega)]
  by_cases hi : b.isInterface p = true
  · rw [if_pos hi, if_pos hi]
    have := h2 hi
    simp only [show ¬b.total ≤ p + 2 by omega, false_or]
  · rw [if_neg hi, if_neg hi]
    by_cases he : b.isEndpoint p = true
    · rw [if_pos he, if_pos he, if_neg (by have := h5 he; omega)]
    · rw [if_neg he, if_neg he]

theorem packetSize_eq : ∃ epMpsIn epMpsOut, packetSize b s = { s with epMpsIn := epMpsIn, epMpsOut := epMpsOut } := by
  unfold packetSize
  dsimp only
  split_ifs
  · exact ⟨_, s.epMpsOut, rfl⟩
  · exact ⟨s.epMpsIn, s.epMpsOut, rfl⟩
  · exact ⟨s.epMpsIn, _, rfl⟩
  · exact ⟨s.epMpsIn, s.epMpsOut, rfl⟩

theorem First.advance (h : First b s k c p) : First b (advance b s) k c (p + b.len p) := by
  refine ⟨?_, ?_, h.ifs, h.ifnum, h.alt, h.entry, h.later⟩
  · rw [UsbhConfig.advance, h.pos]
  · rw [UsbhConfig.advance, h.pos, h.size, Nat.sub_sub]

theorem First.next (h : First b s k c p) (hend : p + b.len p ≤ b.total) (hin : Inside b p)
    (hplain : b.isInterface p → b.number p = UInt8.ofNat k ∧ k < b.num) :
    ∃ s', First b s' k (c + count b [p]) (p + b.len p) ∧ Kept s s' k ∧ next b s = settle b s' := by
  rw [next_inside h.pos h.size hend hin]
  by_cases hi : b.isInterface p = true
  · obtain ⟨hnum, hk⟩ := hplain hi
    have hcount : count b [p] = 1 := by
      simp [count, hi]
    have hinterface : interface b s = settle b (UsbhConfig.advance b (countAlt s)) := by
      unfold interface
      rw [h.ifs, h.entry, h.pos, h.ifnum, hnum]
      exact if_pos rfl
    have htable : (countAlt s).table = Function.update s.table k { numOfAlt := UInt8.ofNat c + 1, alt := none } := by
      unfold countAlt
      rw [h.ifs, h.entry]
    have hat : First b (countAlt s) k (c + 1) p := by
      refine ⟨h.pos, h.size, h.ifs, h.ifnum, h.alt, ?_, fun j hj => ?_⟩
      · rw [htable, update_self, UInt8.ofNat_add]
        rfl
      · rw [htable, update_of_ne (by omega)]
        exact h.later j hj
    rw [if_pos hi, if_neg (by rw [h.ifs]; omega), hinterface, hcount]
    refine ⟨_, hat.advance, ⟨rfl, rfl, rfl, fun j hj => ?_⟩, rfl⟩
    show (countAlt s).table j = s.table j
    rw [htable, update_of_ne hj]
  · have hcount : count b [p] = 0 := by
      simp [count, hi]
    rw [if_neg hi, hcount]
    by_cases he : b.isEndpoint p = true
    · obtain ⟨epMpsIn, epMpsOut, hps⟩ := packetSize_eq (b := b) (s := s)
      have hat : First b { s with epMpsIn := epMpsIn, epMpsOut := epMpsOut } k c p :=
        ⟨h.pos, h.size, h.ifs, h.ifnum, h.alt, h.entry, h.later⟩
      rw [if_pos he, endpoint, h.alt, hps]
      exact ⟨_, hat.advance, ⟨rfl, rfl, rfl, fun _ _ => rfl⟩, rfl⟩
    · rw [if_neg he]
      exact ⟨_, h.advance, ⟨rfl, rfl, rfl, fun _ _ => rfl⟩, rfl⟩

/-- **The first pass** over the descriptors of an interface. -/
theorem pass_one (hw : Walk b p g q) : ∀ {s c}, First b s k c p → p < b.total → (∀ d ∈ g, Inside b d) → Plain b k g →
    (count b g = 0 ∨ k < b.num) →
    ∃ s', First b s' k (c + count b g) q ∧ Kept s s' k ∧ ∀ r, Loop.Ends (next b) s r ↔ Loop.Goes (next b) (settle b s') r := by
  induction hw with
  | nil p =>
    intro s c h hp _ _ _
    refine ⟨s, h, .refl, fun r => ?_⟩
    rw [settle_more (.inl (by rw [h.size]; omega))]
    exact Iff.rfl
  | @cons p q ds hlen hend hw ih =>
    intro s c h hp hin hplain hk
    have hcount : count b (p :: ds) = count b [p] + count b ds := by
      rw [count, count, count, ← countP_append]
      rfl
    rw [hcount] at hk
    have hfirst : b.isInterface p → b.number p = UInt8.ofNat k ∧ k < b.num := by
      intro hi
      refine ⟨hplain p (mem_cons_self ..) hi, hk.resolve_left fun h0 => ?_⟩
      simp [count, hi] at h0
    obtain ⟨s', h', hkept, hnext⟩ := h.next hend (hin p (mem_cons_self ..)) hfirst
    rcases lt_or_ge (p + b.len p) b.total with hlt | hge
    · obtain ⟨s'', h'', hkept', hends⟩ := ih h' hlt (fun d hd => hin d (mem_cons_of_mem _ hd))
        (fun d hd => hplain d (mem_cons_of_mem _ hd)) (hk.imp (by omega) id)
      refine ⟨s'', ?_, hkept.trans hkept', fun r => ?_⟩
      · rw [hcount, ← add_assoc]
        exact h''
      · rw [Loop.ends_iff, hnext, settle_more (.inl (by rw [h'.size]; omega))]
        exact hends r
    · -- The block ends here, so nothing else follows.
      cases hw with
      | nil =>
        refine ⟨s', by rw [hcount]; exact h', hkept, fun r => ?_⟩
        rw [Loop.ends_iff, hnext]
      | cons hlen' hend' _ => omega

theorem First.alloc (h : First b s k c p) (hk : k < b.num) (hfits : granted b k c = true)
    (htmp : s.tmpsize = b.total - s.tmppos) :
    ∃ s', allocAlt b s = .inr s' ∧ Second b s' k c (blank c) 0 s.tmppos ∧
      ∀ j, j ≠ k → s'.table j = s.table j := by
  unfold allocAlt
  rw [h.ifs, h.entry, if_neg (by omega), if_pos hfits]
  refine ⟨_, rfl, ⟨rfl, htmp, rfl, h.ifnum, rfl, rfl, update_self .., fun j hj => ?_⟩,
    fun j hj => update_of_ne hj ..⟩
  exact (update_of_ne (by omega) ..).trans (h.later j hj)

theorem First.refused (h : First b s k c p) (hk : k < b.num) (hno : granted b k c = false) :
    allocAlt b s = .inl (.noAlt s) := by
  unfold allocAlt
  rw [h.ifs, h.entry, if_neg (by omega)]
  exact if_neg (ne_true_of_eq_false hno)

/-- What one descriptor does to the array and to `alt`. -/
def fillStep (b : Block) (alts : List UsbhAlt) (i p : ℕ) : Option (List UsbhAlt × ℕ) :=
  if b.isInterface p then if i < alts.length then some (nextSetting alts i p, i + 1) else none
  else if b.isEndpoint p then
    match i with
    | 0 => none
    | i + 1 => some (firstEndpoint alts i p, i + 1)
  else some (alts, i)

/-- What the second pass does to them, if it stays in the array. -/
def fill (b : Block) : List ℕ → List UsbhAlt → ℕ → Option (List UsbhAlt × ℕ)
  | [], alts, i => some (alts, i)
  | p :: ds, alts, i => (fillStep b alts i p).bind fun f => fill b ds f.1 f.2

theorem Second.advance (h : Second b s k c alts i p) : Second b (advance b s) k c alts i (p + b.len p) := by
  refine ⟨?_, ?_, h.ifs, h.ifnum, h.claiming, h.alt, h.entry, h.later⟩
  · rw [UsbhConfig.advance, h.pos]
  · rw [UsbhConfig.advance, h.pos, h.size, Nat.sub_sub]

theorem Second.put (h : Second b s k c alts i p) (alts' : List UsbhAlt) (i' : ℕ) :
    Second b (putAlts s alts' i') k c alts' i' p ∧ ∀ j, j ≠ k → (putAlts s alts' i').table j = s.table j := by
  have htable : (putAlts s alts' i').table = Function.update s.table k { numOfAlt := UInt8.ofNat c, alt := some alts' } := by
    unfold putAlts
    rw [h.ifs, h.entry]
  refine ⟨⟨h.pos, h.size, h.ifs, h.ifnum, h.claiming, rfl, ?_, fun j hj => ?_⟩, fun j hj => ?_⟩
  · rw [htable, update_self]
  · rw [htable, update_of_ne (by omega)]
    exact h.later j hj
  · rw [htable, update_of_ne hj]

theorem Second.next (h : Second b s k c alts i p) (hend : p + b.len p ≤ b.total) (hin : Inside b p) (hk : k < b.num)
    (hplain : b.isInterface p → b.number p = UInt8.ofNat k) :
    match fillStep b alts i p with
    | none => next b s = .inl .fault
    | some f => ∃ s', Second b s' k c f.1 f.2 (p + b.len p) ∧ (∀ j, j ≠ k → s'.table j = s.table j) ∧
        next b s = settle b s' := by
  rw [next_inside h.pos h.size hend hin]
  unfold fillStep
  by_cases hi : b.isInterface p = true
  · have hifs : ¬b.num ≤ s.ifs := by
      rw [h.ifs]
      omega
    have hinterface : interface b s =
        if i < alts.length then settle b (UsbhConfig.advance b (putAlts s (nextSetting alts i p) (i + 1))) else .inl .fault := by
      unfold interface
      rw [h.ifs, h.entry, h.pos, h.ifnum, hplain hi, h.alt]
      exact if_pos rfl
    rw [if_pos hi, if_pos hi, if_neg hifs, hinterface]
    by_cases hlt : i < alts.length
    · rw [if_pos hlt, if_pos hlt]
      obtain ⟨hput, hother⟩ := h.put (nextSetting alts i p) (i + 1)
      exact ⟨_, hput.advance, hother, rfl⟩
    · rw [if_neg hlt, if_neg hlt]
  · rw [if_neg hi, if_neg hi]
    by_cases he : b.isEndpoint p = true
    · rw [if_pos he, if_pos he, endpoint, h.ifs, h.entry, h.alt, h.pos]
      cases i with
      | zero => rfl
      | succ i =>
        obtain ⟨hput, hother⟩ := h.put (firstEndpoint alts i p) (i + 1)
        obtain ⟨epMpsIn, epMpsOut, hps⟩ := packetSize_eq (b := b) (s := putAlts s (firstEndpoint alts i p) (i + 1))
        have hat : Second b { putAlts s (firstEndpoint alts i p) (i + 1) with epMpsIn := epMpsIn, epMpsOut := epMpsOut } k c
            (firstEndpoint alts i p) (i + 1) p :=
          ⟨hput.pos, hput.size, hput.ifs, hput.ifnum, hput.claiming, hput.alt, hput.entry, hput.later⟩
        refine ⟨_, hat.advance, hother, ?_⟩
        dsimp only
        rw [hps]
    · rw [if_neg he, if_neg he]
      exact ⟨_, h.advance, fun _ _ => rfl, rfl⟩

/-- **The second pass** over the descriptors of an interface. -/
theorem pass_two (hw : Walk b p g q) : ∀ {s alts i}, Second b s k c alts i p → p < b.total → (∀ d ∈ g, Inside b d) →
    Plain b k g → k < b.num →
    match fill b g alts i with
    | none => ∀ r, Loop.Ends (next b) s r ↔ r = .fault
    | some f => ∃ s', Second b s' k c f.1 f.2 q ∧ (∀ j, j ≠ k → s'.table j = s.table j) ∧
        ∀ r, Loop.Ends (next b) s r ↔ Loop.Goes (next b) (settle b s') r := by
  induction hw with
  | nil p =>
    intro s alts i h hp _ _ _
    refine ⟨s, h, fun _ _ => rfl, fun r => ?_⟩
    rw [settle_more (.inl (by rw [h.size]; omega))]
    exact Iff.rfl
  | @cons p q ds hlen hend hw ih =>
    intro s alts i h hp hin hplain hk
    have hnext := h.next hend (hin p (mem_cons_self ..)) hk (hplain p (mem_cons_self ..))
    rw [fill]
    cases hstep : fillStep b alts i p with
    | none =>
      rw [hstep] at hnext
      exact fun r => Loop.ends_inl hnext
    | some f =>
      rw [hstep] at hnext
      obtain ⟨s', h', hkept, hnext⟩ := hnext
      rw [Option.bind_some]
      rcases lt_or_ge (p + b.len p) b.total with hlt | hge
      · have hrest := ih h' hlt (fun d hd => hin d (mem_cons_of_mem _ hd)) (fun d hd => hplain d (mem_cons_of_mem _ hd)) hk
        have hends : ∀ r, Loop.Ends (UsbhConfig.next b) s r ↔ Loop.Ends (UsbhConfig.next b) s' r := by
          intro r
          rw [settle_more (.inl (by rw [h'.size]; omega))] at hnext
          exact Loop.ends_inr hnext
        cases hfill : fill b ds f.1 f.2 with
        | none =>
          rw [hfill] at hrest
          exact fun r => (hends r).trans (hrest r)
        | some f' =>
          rw [hfill] at hrest
          obtain ⟨s'', h'', hkept', hends'⟩ := hrest
          exact ⟨s'', h'', fun j hj => (hkept' j hj).trans (hkept j hj), fun r => (hends r).trans (hends' r)⟩
      · cases hw with
        | nil =>
          refine ⟨s', h', hkept, fun r => ?_⟩
          rw [Loop.ends_iff, hnext]
        | cons hlen' hend' _ => omega

/-- The array is filled, and the next interface is looked for. -/
theorem Second.probe (h : Second b s k c alts (i + 1) q) : ∃ s', probeAlt s q = .inr s' ∧ First b s' (k + 1) 0 q ∧
    s'.tmppos = q ∧ s'.tmpsize = b.total - q ∧ s'.claiming = (if q < b.total then 1 else 0) ∧
    s'.table k = { numOfAlt := UInt8.ofNat c, alt := some (setSize alts i q) } ∧ ∀ j, j ≠ k → s'.table j = s.table j := by
  unfold probeAlt
  rw [h.alt, h.ifs, h.entry]
  refine ⟨_, rfl, ⟨h.pos, h.size, rfl, ?_, rfl, ?_, fun j hj => ?_⟩, h.pos, h.size, ?_, update_self .., fun j hj =>
    update_of_ne hj ..⟩
  · show s.ifnum + 1 = UInt8.ofNat (k + 1)
    rw [h.ifnum, UInt8.ofNat_add]
    rfl
  · exact (update_of_ne (by omega) ..).trans (h.later _ (by omega))
  · exact (update_of_ne (by omega) ..).trans (h.later j (by omega))
  · show (if 0 < s.size then 1 else 0) = if q < b.total then 1 else 0
    rw [h.size]
    simp only [Nat.sub_pos_iff_lt]

theorem Second.probe_fault (h : Second b s k c alts 0 q) : probeAlt s q = .inl .fault := by
  unfold probeAlt
  rw [h.alt]

/-! ### A descriptor the loop does not get over -/

theorem next_outside (hpos : s.pos = p) (hsize : s.size = b.total - p) (hlt : p < b.total) (hend : p + b.len p ≤ b.total)
    (hout : ¬Inside b p) : next b s = .inl .fault := by
  unfold next
  rw [hpos, hsize, if_neg (by omega), if_neg (by omega), if_neg (by omega)]
  by_cases h1 : b.total ≤ p + 1
  · rw [if_pos h1]
  rw [if_neg h1]
  by_cases hi : b.isInterface p = true
  · rw [if_pos hi]
    apply if_pos
    left
    by_contra h2
    refine hout ⟨by omega, fun _ => by omega, fun he => ?_⟩
    rw [not_endpoint hi] at he
    cases he
  · rw [if_neg hi]
    by_cases he : b.isEndpoint p = true
    · rw [if_pos he]
      apply if_pos
      by_contra h5
      exact hout ⟨by omega, fun hi' => absurd hi' hi, fun _ => by omega⟩
    · exact absurd ⟨by omega, fun hi' => absurd hi' hi, fun he' => absurd he' he⟩ hout

/-- **No end**: a descriptor of 0 bytes, which is not another interface's, is not got over. -/
theorem First.stuck (h : First b s k c p) (hlt : p < b.total) (hlen : b.len p = 0) (hin : Inside b p)
    (hplain : b.isInterface p → b.number p = UInt8.ofNat k ∧ k < b.num) : ¬Loop.Ends (UsbhConfig.next b) s r := by
  intro hr
  have hturn : ∀ s, (∃ c, First b s k c p) → ∃ s', UsbhConfig.next b s = .inr s' ∧ ∃ c, First b s' k c p := by
    rintro s ⟨c, h⟩
    obtain ⟨s', h', -, hnext⟩ := h.next (by omega) hin hplain
    rw [hlen, add_zero] at h'
    rw [settle_more (.inl (by rw [h'.size]; omega))] at hnext
    exact ⟨s', hnext, _, h'⟩
  refine hr.invariant (P := fun s => ∃ c, First b s k c p) (Q := fun _ => False) ⟨c, h⟩ (fun s r hs hend => ?_)
    fun s s' hs hs' => ?_
  · obtain ⟨s', hnext, -⟩ := hturn s hs
    rw [hend] at hnext
    cases hnext
  · obtain ⟨s'', hnext, hs''⟩ := hturn s hs
    rw [hs'] at hnext
    exact Sum.inr.inj hnext ▸ hs''

end UsbhConfig
end Vsf
