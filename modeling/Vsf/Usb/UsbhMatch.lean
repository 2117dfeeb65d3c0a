/-
# The driver of an interface

`vsfusbh_match_intrface_driver` goes over the settings of the interface for each driver. The pointer
that takes what was found is also where the search begins: after a setting without an entry it is
`NULL`. So the driver found is the first with an entry for the first setting
(`UsbhMatch.drvLoop_spec`). A pointer into a table is what is there from it on.
-/
import Mathlib

namespace Vsf
namespace UsbhMatch

open List Option

/-- `struct vsfusbh_device_id_t`. -/
structure DeviceId where
  matchFlags : UInt16
  idVendor : UInt16
  idProduct : UInt16
  bcdDeviceLo : UInt16
  bcdDeviceHi : UInt16
  bDeviceClass : UInt8
  bDeviceSubClass : UInt8
  bDeviceProtocol : UInt8
  bInterfaceClass : UInt8
  bInterfaceSubClass : UInt8
  bInterfaceProtocol : UInt8
deriving DecidableEq

/-- What is compared of `struct usb_device_desc_t`. -/
structure DeviceDesc where
  idVendor : UInt16
  idProduct : UInt16
  bcdDevice : UInt16
  bDeviceClass : UInt8
  bDeviceSubClass : UInt8
  bDeviceProtocol : UInt8

/-- What is compared of `struct usb_interface_desc_t`. -/
structure InterfaceDesc where
  bInterfaceClass : UInt8
  bInterfaceSubClass : UInt8
  bInterfaceProtocol : UInt8

/-- `struct vsfusbh_ifs_t`; of a setting only `ifs_desc` is read. -/
structure Ifs where
  numOfAlt : UInt8
  curAlt : UInt8
  alt : ℕ → InterfaceDesc

/-- `struct vsfusbh_class_drv_t`. -/
structure ClassDrv where
  name : String
  idTable : Option (List DeviceId)
deriving DecidableEq

/-- `USB_DEVICE_ID_MATCH_VENDOR` and the others. -/
def matchVendor : UInt16 := 0x0001
def matchProduct : UInt16 := 0x0002
def matchDevLo : UInt16 := 0x0004
def matchDevHi : UInt16 := 0x0008
def matchDevClass : UInt16 := 0x0010
def matchDevSubclass : UInt16 := 0x0020
def matchDevProtocol : UInt16 := 0x0040
def matchIntClass : UInt16 := 0x0080
def matchIntSubclass : UInt16 := 0x0100
def matchIntProtocol : UInt16 := 0x0200

/-- `id->match_flags & flag`. -/
def DeviceId.asks (id : DeviceId) (flag : UInt16) : Bool := id.matchFlags &&& flag != 0

/-- The entry behind the last one of a table. -/
def DeviceId.last (id : DeviceId) : Bool := !(id.idVendor != 0 || id.bDeviceClass != 0 || id.bInterfaceClass != 0)

/-! ### The search -/

/-- One of the ten conditions under which an entry is passed over. -/
def differs (dev : DeviceDesc) (desc : InterfaceDesc) (id : DeviceId) : Bool :=
  id.asks matchVendor && id.idVendor != dev.idVendor ||
  id.asks matchProduct && id.idProduct != dev.idProduct ||
  id.asks matchDevLo && decide (id.bcdDeviceLo > dev.bcdDevice) ||
  id.asks matchDevHi && decide (id.bcdDeviceHi < dev.bcdDevice) ||
  id.asks matchDevClass && id.bDeviceClass != dev.bDeviceClass ||
  id.asks matchDevSubclass && id.bDeviceSubClass != dev.bDeviceSubClass ||
  id.asks matchDevProtocol && id.bDeviceProtocol != dev.bDeviceProtocol ||
  id.asks matchIntClass && id.bInterfaceClass != desc.bInterfaceClass ||
  id.asks matchIntSubclass && id.bInterfaceSubClass != desc.bInterfaceSubClass ||
  id.asks matchIntProtocol && id.bInterfaceProtocol != desc.bInterfaceProtocol

/-- The loop of `vsfusbh_match_id`. -/
def matchIdLoop (dev : DeviceDesc) (desc : InterfaceDesc) : List DeviceId → Option (List DeviceId)
  | [] => none
  | id :: rest =>
    if id.last then none
    else if differs dev desc id then matchIdLoop dev desc rest
    else some (id :: rest)

/-- `vsfusbh_match_id`. -/
def matchId (dev : DeviceDesc) (ifs : Ifs) (id : Option (List DeviceId)) : Option (List DeviceId) :=
  id.bind (matchIdLoop dev (ifs.alt ifs.curAlt.toNat))

/-- The settings from `i` on: the interface, `*id`, and if it was left by `goto`. -/
def altLoop (dev : DeviceDesc) : ℕ → UInt8 → Ifs → Option (List DeviceId) → Ifs × Option (List DeviceId) × Bool
  | 0, _, ifs, id => (ifs, id, false)
  | f + 1, i, ifs, id =>
    if i < ifs.numOfAlt then
      let ifs := { ifs with curAlt := i }
      match matchId dev ifs id with
      | some id => (ifs, some id, true)
      | none => altLoop dev f (i + 1) ifs none
    else (ifs, id, false)

/-- The loop over the drivers; there are 255 settings at most. -/
def drvLoop (dev : DeviceDesc) : List ClassDrv → Ifs → Option (List DeviceId) → Option ClassDrv × Ifs × Option (List DeviceId)
  | [], ifs, id => (none, ifs, id)
  | drv :: rest, ifs, _ =>
    match drv.idTable with
    | none => drvLoop dev rest ifs none
    | some table =>
      match altLoop dev 256 0 ifs (some table) with
      | (ifs, id, true) => (some drv, ifs, id)
      | (ifs, id, false) => drvLoop dev rest ifs id

/-- `vsfusbh_match_intrface_driver`: the driver, the interface, and `*id`. -/
def matchIntrfaceDriver (drvs : List ClassDrv) (dev : DeviceDesc) (ifs : Ifs) (id : Option (List DeviceId)) :
    Option ClassDrv × Ifs × Option (List DeviceId) :=
  let r := drvLoop dev drvs ifs id
  (r.1, { r.2.1 with curAlt := 0 }, r.2.2)

/-! ### What is asked of it -/

/-- The device and the setting are what the entry asks for. -/
structure Matches (dev : DeviceDesc) (desc : InterfaceDesc) (id : DeviceId) : Prop where
  vendor : id.asks matchVendor = true → id.idVendor = dev.idVendor
  product : id.asks matchProduct = true → id.idProduct = dev.idProduct
  devLo : id.asks matchDevLo = true → id.bcdDeviceLo ≤ dev.bcdDevice
  devHi : id.asks matchDevHi = true → dev.bcdDevice ≤ id.bcdDeviceHi
  devClass : id.asks matchDevClass = true → id.bDeviceClass = dev.bDeviceClass
  devSubclass : id.asks matchDevSubclass = true → id.bDeviceSubClass = dev.bDeviceSubClass
  devProtocol : id.asks matchDevProtocol = true → id.bDeviceProtocol = dev.bDeviceProtocol
  intClass : id.asks matchIntClass = true → id.bInterfaceClass = desc.bInterfaceClass
  intSubclass : id.asks matchIntSubclass = true → id.bInterfaceSubClass = desc.bInterfaceSubClass
  intProtocol : id.asks matchIntProtocol = true → id.bInterfaceProtocol = desc.bInterfaceProtocol

/-- The entries of a table. -/
def entries (table : List DeviceId) : List DeviceId := table.takeWhile fun id => !id.last

/-- The driver has an entry for the device and setting `k`. -/
def ClassDrv.SuitsAt (drv : ClassDrv) (dev : DeviceDesc) (ifs : Ifs) (k : ℕ) : Prop :=
  k < ifs.numOfAlt.toNat ∧ ∃ table, drv.idTable = some table ∧ ∃ id ∈ entries table, Matches dev (ifs.alt k) id

/-- The driver has an entry for the device and a setting. -/
def ClassDrv.Suits (drv : ClassDrv) (dev : DeviceDesc) (ifs : Ifs) : Prop := ∃ k, drv.SuitsAt dev ifs k

/-- The driver is the first of those for which `P` holds. -/
def First (P : ClassDrv → Prop) (drvs : List ClassDrv) (drv : ClassDrv) : Prop :=
  P drv ∧ ∃ before behind, drvs = before ++ drv :: behind ∧ ∀ d ∈ before, ¬P d

/-- The first driver with an entry for a setting, and such an entry, if there is one. -/
def Right (drvs : List ClassDrv) (dev : DeviceDesc) (ifs : Ifs) : Option ClassDrv × Ifs × Option (List DeviceId) → Prop
  | (none, _, _) => ∀ drv ∈ drvs, ¬drv.Suits dev ifs
  | (some drv, _, id) => First (fun d => d.Suits dev ifs) drvs drv ∧
      ∃ table, drv.idTable = some table ∧ ∃ e rest, id = some (e :: rest) ∧ (e :: rest) <:+ table ∧
        e ∈ entries table ∧ ∃ k < ifs.numOfAlt.toNat, Matches dev (ifs.alt k) e

/-- The first driver with an entry for a setting has one for the first setting. -/
def Meets (drvs : List ClassDrv) (dev : DeviceDesc) (ifs : Ifs) : Prop :=
  ∀ drv, First (fun d => d.Suits dev ifs) drvs drv → drv.SuitsAt dev ifs 0

variable {dev : DeviceDesc} {desc : InterfaceDesc} {ifs ifs' : Ifs} {id : DeviceId} {ids table : List DeviceId}
  {drv : ClassDrv} {drvs : List ClassDrv} {P Q : ClassDrv → Prop}

/-! ### One table -/

theorem not_and_ne {α : Type*} [DecidableEq α] {b : Bool} {x y : α} : (b && x != y) = false ↔ (b = true → x = y) := by
  cases b <;> simp

theorem not_and_decide {b : Bool} {p q : Prop} [Decidable p] (h : ¬p ↔ q) : (b && decide p) = false ↔ (b = true → q) := by
  cases b <;> simp [← h]

theorem differs_iff : differs dev desc id = false ↔ Matches dev desc id := by
  unfold differs
  simp only [Bool.or_eq_false_iff, not_and_ne, not_and_decide (b := id.asks matchDevLo) UInt16.not_lt,
    not_and_decide (b := id.asks matchDevHi) UInt16.not_lt]
  constructor
  · rintro ⟨⟨⟨⟨⟨⟨⟨⟨⟨h1, h2⟩, h3⟩, h4⟩, h5⟩, h6⟩, h7⟩, h8⟩, h9⟩, h10⟩
    exact ⟨h1, h2, h3, h4, h5, h6, h7, h8, h9, h10⟩
  · rintro ⟨h1, h2, h3, h4, h5, h6, h7, h8, h9, h10⟩
    exact ⟨⟨⟨⟨⟨⟨⟨⟨⟨h1, h2⟩, h3⟩, h4⟩, h5⟩, h6⟩, h7⟩, h8⟩, h9⟩, h10⟩

theorem entries_cons (h : id.last = false) (rest : List DeviceId) : entries (id :: rest) = id :: entries rest :=
  takeWhile_cons_of_pos (by rw [h]; rfl)

theorem entries_last (h : id.last = true) (rest : List DeviceId) : entries (id :: rest) = [] :=
  takeWhile_cons_of_neg (by rw [h]; exact Bool.false_ne_true)

/-- **An entry that is found** is one of the table, and matches. -/
theorem matchIdLoop_some : ∀ {table : List DeviceId}, matchIdLoop dev desc table = some ids →
    ∃ e rest, ids = e :: rest ∧ ids <:+ table ∧ e ∈ entries table ∧ Matches dev desc e
  | [], h => by cases h
  | id :: rest, h => by
    rw [matchIdLoop] at h
    cases hlast : id.last with
    | true =>
      rw [if_pos hlast] at h
      cases h
    | false =>
      rw [if_neg (Bool.eq_false_iff.mp hlast)] at h
      rw [entries_cons hlast]
      by_cases hdiff : differs dev desc id = true
      · rw [if_pos hdiff] at h
        obtain ⟨e, rest', rfl, hsuffix, hmem, hm⟩ := matchIdLoop_some h
        exact ⟨e, rest', rfl, hsuffix.trans (suffix_cons id rest), mem_cons_of_mem _ hmem, hm⟩
      · rw [if_neg hdiff] at h
        obtain rfl := some.inj h
        exact ⟨id, rest, rfl, suffix_rfl, mem_cons_self, differs_iff.mp (Bool.eq_false_iff.mpr hdiff)⟩

theorem matchIdLoop_none : ∀ {table : List DeviceId}, matchIdLoop dev desc table = none →
    ∀ e ∈ entries table, ¬Matches dev desc e
  | [], _, e, he => by cases he
  | id :: rest, h, e, he => by
    rw [matchIdLoop] at h
    cases hlast : id.last with
    | true =>
      rw [entries_last hlast] at he
      cases he
    | false =>
      rw [if_neg (Bool.eq_false_iff.mp hlast)] at h
      rw [entries_cons hlast] at he
      by_cases hdiff : differs dev desc id = true
      · rw [if_pos hdiff] at h
        rcases mem_cons.mp he with rfl | he
        · exact fun hm => by rw [differs_iff.mpr hm] at hdiff; cases hdiff
        · exact matchIdLoop_none h e he
      · rw [if_neg hdiff] at h
        cases h

/-! ### The settings -/

/-- Only `cur_alt` is written. -/
def Same (ifs ifs' : Ifs) : Prop := ifs'.numOfAlt = ifs.numOfAlt ∧ ifs'.alt = ifs.alt

theorem Same.suitsAt (h : Same ifs ifs') (drv : ClassDrv) (k : ℕ) : drv.SuitsAt dev ifs' k ↔ drv.SuitsAt dev ifs k := by
  rw [ClassDrv.SuitsAt, ClassDrv.SuitsAt, h.1, h.2]

theorem altLoop_none (dev : DeviceDesc) : ∀ (f : ℕ) (i : UInt8) (ifs : Ifs),
    ∃ ifs', altLoop dev f i ifs none = (ifs', none, false) ∧ Same ifs ifs'
  | 0, _, ifs => ⟨ifs, rfl, rfl, rfl⟩
  | f + 1, i, ifs => by
    rw [altLoop]
    by_cases hlt : i < ifs.numOfAlt
    · rw [if_pos hlt]
      obtain ⟨ifs', hloop, hsame⟩ := altLoop_none dev f (i + 1) { ifs with curAlt := i }
      exact ⟨ifs', hloop, hsame.1, hsame.2⟩
    · rw [if_neg hlt]
      exact ⟨ifs, rfl, rfl, rfl⟩

/-- **A table is searched for the first setting only.** -/
theorem altLoop_spec (dev : DeviceDesc) (ifs : Ifs) (table : List DeviceId) : ∃ ifs' id, Same ifs ifs' ∧
    (altLoop dev 256 0 ifs (some table) = (ifs', id, true) ∧ 0 < ifs.numOfAlt.toNat ∧ matchIdLoop dev (ifs.alt 0) table = id ∧ id ≠ none ∨
      altLoop dev 256 0 ifs (some table) = (ifs', id, false) ∧
        (0 < ifs.numOfAlt.toNat → matchIdLoop dev (ifs.alt 0) table = none)) := by
  rw [altLoop]
  by_cases hlt : 0 < ifs.numOfAlt
  · have hpos : 0 < ifs.numOfAlt.toNat := UInt8.lt_iff_toNat_lt.mp hlt
    have hid : matchId dev { ifs with curAlt := 0 } (some table) = matchIdLoop dev (ifs.alt 0) table := rfl
    rw [if_pos hlt]
    dsimp only
    rw [hid]
    cases hfound : matchIdLoop dev (ifs.alt 0) table with
    | some ids => exact ⟨{ ifs with curAlt := 0 }, some ids, ⟨rfl, rfl⟩, .inl ⟨rfl, hpos, rfl, nofun⟩⟩
    | none =>
      obtain ⟨ifs', hloop, hsame⟩ := altLoop_none dev 255 (0 + 1) { ifs with curAlt := 0 }
      exact ⟨ifs', none, ⟨hsame.1, hsame.2⟩, .inr ⟨hloop, fun _ => rfl⟩⟩
  · rw [if_neg hlt]
    refine ⟨ifs, some table, ⟨rfl, rfl⟩, .inr ⟨rfl, fun hpos => ?_⟩⟩
    exact absurd (UInt8.lt_iff_toNat_lt.mpr (by simpa using hpos)) hlt

/-! ### The drivers -/

theorem First.cons (h : ¬P drv) {d : ClassDrv} : First P (drv :: drvs) d ↔ First P drvs d := by
  refine and_congr_right fun hd => ⟨?_, ?_⟩
  · rintro ⟨before, behind, heq, hnot⟩
    cases before with
    | nil =>
      obtain ⟨rfl, -⟩ := cons_eq_cons.mp heq
      exact absurd hd h
    | cons b before =>
      obtain ⟨-, heq⟩ := cons_eq_cons.mp heq
      exact ⟨before, behind, heq, fun d hd => hnot d (mem_cons_of_mem _ hd)⟩
  · rintro ⟨before, behind, rfl, hnot⟩
    exact ⟨drv :: before, behind, rfl, forall_mem_cons.mpr ⟨h, hnot⟩⟩

theorem First.unique : ∀ {drvs : List ClassDrv} {d d' : ClassDrv}, First P drvs d → First P drvs d' → d = d'
  | [], _, _, ⟨_, before, _, heq, _⟩, _ => by
    cases before <;> cases heq
  | drv :: drvs, d, d', h, h' => by
    by_cases hp : P drv
    · have hhead : ∀ {x : ClassDrv}, First P (drv :: drvs) x → x = drv := by
        rintro x ⟨-, before, behind, heq, hnot⟩
        cases before with
        | nil => exact (cons_eq_cons.mp heq).1.symm
        | cons b before =>
          obtain ⟨rfl, -⟩ := cons_eq_cons.mp heq
          exact absurd hp (hnot _ mem_cons_self)
      rw [hhead h, hhead h']
    · exact First.unique ((First.cons hp).mp h) ((First.cons hp).mp h')

theorem exists_first : ∀ {drvs : List ClassDrv}, drv ∈ drvs → P drv → ∃ d, First P drvs d
  | d :: ds, hmem, hp => by
    by_cases hd : P d
    · exact ⟨d, hd, [], ds, rfl, fun _ h => by cases h⟩
    · have htail : drv ∈ ds := (mem_cons.mp hmem).resolve_left fun heq => hd (heq ▸ hp)
      obtain ⟨x, hx⟩ := exists_first htail hp
      exact ⟨x, (First.cons hd).mpr hx⟩

/-- The entry that was found with a driver. -/
def Found (dev : DeviceDesc) (ifs : Ifs) (drv : ClassDrv) (id : Option (List DeviceId)) : Prop :=
  ∃ table, drv.idTable = some table ∧ ∃ e rest, id = some (e :: rest) ∧ (e :: rest) <:+ table ∧ e ∈ entries table ∧
    Matches dev (ifs.alt 0) e

/-- **What is found** is the first driver for the first setting, by induction on the drivers. -/
theorem drvLoop_spec (dev : DeviceDesc) : ∀ (drvs : List ClassDrv) (ifs : Ifs) (id : Option (List DeviceId)),
    match drvLoop dev drvs ifs id with
    | (none, _, _) => ∀ drv ∈ drvs, ¬drv.SuitsAt dev ifs 0
    | (some drv, _, id) => First (fun d => d.SuitsAt dev ifs 0) drvs drv ∧ Found dev ifs drv id
  | [], _, _ => fun _ h => by cases h
  | drv :: drvs, ifs, id => by
    -- the search goes on with an interface that has the same settings
    have hrest : ¬drv.SuitsAt dev ifs 0 → ∀ (ifs' : Ifs) (id' : Option (List DeviceId)), Same ifs ifs' →
        match drvLoop dev drvs ifs' id' with
        | (none, _, _) => ∀ d ∈ drv :: drvs, ¬d.SuitsAt dev ifs 0
        | (some d, _, id) => First (fun d => d.SuitsAt dev ifs 0) (drv :: drvs) d ∧ Found dev ifs d id := by
      intro hnot ifs' id' hsame
      have ih := drvLoop_spec dev drvs ifs' id'
      have hfound : ∀ d e, Found dev ifs' d e = Found dev ifs d e := fun d e => by rw [Found, Found, hsame.2]
      simp only [hsame.suitsAt, hfound] at ih
      generalize drvLoop dev drvs ifs' id' = r at ih
      obtain ⟨_ | d, i, e⟩ := r
      · exact forall_mem_cons.mpr ⟨hnot, ih⟩
      · exact ⟨(First.cons hnot).mpr ih.1, ih.2⟩
    rw [drvLoop]
    cases htable : drv.idTable with
    | none =>
      refine hrest ?_ ifs none ⟨rfl, rfl⟩
      rintro ⟨-, table, hsome, -⟩
      rw [htable] at hsome
      cases hsome
    | some table =>
      obtain ⟨ifs', id', hsame, ⟨hloop, hpos, hfound, hne⟩ | ⟨hloop, hnone⟩⟩ := altLoop_spec dev ifs table
      · dsimp only
        rw [hloop]
        obtain ⟨ids, rfl⟩ := ne_none_iff_exists'.mp hne
        obtain ⟨e, rest, rfl, hsuffix, hmem, hm⟩ := matchIdLoop_some hfound
        exact ⟨⟨⟨hpos, table, htable, e, hmem, hm⟩, [], drvs, rfl, fun _ h => by cases h⟩,
          table, htable, e, rest, rfl, hsuffix, hmem, hm⟩
      · dsimp only
        rw [hloop]
        refine hrest ?_ ifs' id' hsame
        rintro ⟨hpos, table', hsome, e, hmem, hm⟩
        obtain rfl := some.inj (htable.symm.trans hsome)
        exact matchIdLoop_none (hnone hpos) e hmem hm

/-- **An interface's driver** is right just when the first one for any setting has an entry for the first. -/
theorem match_iff (drvs : List ClassDrv) (dev : DeviceDesc) (ifs : Ifs) (id : Option (List DeviceId)) :
    Right drvs dev ifs (matchIntrfaceDriver drvs dev ifs id) ↔ Meets drvs dev ifs := by
  have hspec := drvLoop_spec dev drvs ifs id
  unfold matchIntrfaceDriver
  generalize drvLoop dev drvs ifs id = r at hspec
  obtain ⟨_ | drv, i, e⟩ := r
  · show (∀ drv ∈ drvs, ¬drv.Suits dev ifs) ↔ Meets drvs dev ifs
    constructor
    · rintro hnone drv ⟨hsuits, before, behind, rfl, -⟩
      exact absurd hsuits (hnone drv (by simp))
    · intro hmeets drv hmem hsuits
      obtain ⟨d, hd⟩ := exists_first (P := fun d => d.Suits dev ifs) hmem hsuits
      obtain ⟨before, behind, heq, -⟩ := hd.2
      exact hspec d (by simp [heq]) (hmeets d hd)
  · obtain ⟨⟨hsuits, before, behind, heq, hnot⟩, table, htable, e, rest, rfl, hsuffix, hmem, hm⟩ := hspec
    constructor
    · rintro ⟨hfirst, -⟩ d hd
      rw [hd.unique hfirst]
      exact hsuits
    · intro hmeets
      have hdrv : drv ∈ drvs := by simp [heq]
      obtain ⟨d, hd⟩ := exists_first (P := fun d => d.Suits dev ifs) hdrv ⟨0, hsuits⟩
      -- the first suitable driver has an entry for the first setting, so it is the one found
      have hfirst : First (fun d => d.SuitsAt dev ifs 0) drvs d := by
        obtain ⟨before', behind', heq', hnot'⟩ := hd.2
        exact ⟨hmeets d hd, before', behind', heq', fun x hx hat => hnot' x hx ⟨0, hat⟩⟩
      obtain rfl := hfirst.unique ⟨hsuits, before, behind, heq, hnot⟩
      exact ⟨hd, table, htable, e, rest, rfl, hsuffix, hmem, 0, hsuits.1, hm⟩

/-- A driver for mass storage. -/
def storage : ClassDrv where
  name := "storage"
  idTable := some [⟨matchIntClass, 0, 0, 0, 0, 0, 0, 0, 8, 0, 0⟩, ⟨0, 0, 0, 0, 0, 0, 0, 0, 0, 0, 0⟩]

/-- An interface whose second setting is one of mass storage. -/
def second : Ifs where
  numOfAlt := 2
  curAlt := 0
  alt k := if k = 1 then ⟨8, 6, 80⟩ else ⟨255, 0, 0⟩

theorem match_second : ¬∀ (drvs : List ClassDrv) (dev : DeviceDesc) (ifs : Ifs) (id : Option (List DeviceId)),
    Right drvs dev ifs (matchIntrfaceDriver drvs dev ifs id) := by
  intro hall
  have hnone : (matchIntrfaceDriver [storage] ⟨0x1234, 1, 0x100, 0, 0, 0⟩ second none).1 = none := by decide
  have hright := hall [storage] ⟨0x1234, 1, 0x100, 0, 0, 0⟩ second none
  generalize matchIntrfaceDriver [storage] _ second none = r at hnone hright
  obtain ⟨_ | drv, i, e⟩ := r
  · refine hright storage mem_cons_self ⟨1, by decide, _, rfl, _, mem_cons_self, differs_iff.mp (by decide)⟩
  · cases hnone

end UsbhMatch
end Vsf
