/-
# Addresses of USB devices

The host keeps a bit for each device address. `vsfusbh_alloc_device` takes the first clear one, the
probe puts the number aside while the device has address 0, and `vsfusbh_disconnect_device` clears
the bit of the device's number, and nothing else does. The search is told that there are 127 words
of bits, where there are four.
-/
import Mathlib
import Vsf.Buffer.Bittool
import Vsf.Lib.System

namespace Vsf

open ByteMem Bittool Function Option

/-- What of `struct vsfusbh_device_t` addresses need; live until its probe fails. -/
structure UsbhDevice where
  devnum : UInt8
  devnumTemp : UInt8
  live : Bool

/-- Where `new_dev`'s probe is: its event is posted, it answers to address 0, it has its own. -/
inductive ProbePc
  | posted
  | default
  | addressed
  deriving DecidableEq

/-- `struct vsfusbh_t` from `device_bitmap` on, and the devices; `words` counts those accessed. -/
structure Usbh where
  mem : Mem
  devices : ℕ → Option UsbhDevice
  newDev : Option (ℕ × ProbePc)
  words : ℕ

namespace Usbh

/-- `USB_MAX_DEVICE`. -/
def maxDevice : ℕ := 127

/-- The words `mskarr_ffz` looks at: up to the one with a clear bit, or all. -/
def looked (m : Mem) : ℕ := if 0 ≤ mskarrFfz m 0 maxDevice then (mskarrFfz m 0 maxDevice).toNat / 32 + 1 else maxDevice

/-- `vsfusbh_alloc_device`, with memory at `h`; the caller makes it `new_dev` and posts. -/
def allocDevice (s : Usbh) (h : ℕ) : Usbh :=
  let devnum := UInt8.ofInt (mskarrFfz s.mem 0 maxDevice)
  if devnum = 0 then { s with words := max s.words (looked s.mem) }
  else
    { mem := mskarrSet s.mem 0 devnum.toNat
      devices := Function.update s.devices h (some { devnum := devnum, devnumTemp := 0, live := true })
      newDev := some (h, .posted)
      words := max (max s.words (looked s.mem)) (devnum.toNat / 32 + 1) }

/-- A device is written to, if not freed, and the probe moves. -/
def update (s : Usbh) (h : ℕ) (f : UsbhDevice → UsbhDevice) (pc : Option (ℕ × ProbePc)) : Usbh :=
  { s with devices := Function.update s.devices h ((s.devices h).map f), newDev := pc }

/-- `devnum_temp = devnum; devnum = 0`. -/
def putAside (d : UsbhDevice) : UsbhDevice := { d with devnumTemp := d.devnum, devnum := 0 }

/-- `devnum = devnum_temp`. -/
def takeBack (d : UsbhDevice) : UsbhDevice := { d with devnum := d.devnumTemp }

/-- `vsfusbh_disconnect_device`, after its calls for the children. -/
def disconnect (s : Usbh) (h : ℕ) (d : UsbhDevice) : Usbh :=
  { s with
    devices := Function.update s.devices h none
    mem := if d.devnum ≠ 0 then mskarrClr s.mem 0 d.devnum.toNat else s.mem }

inductive Act
  | arrive (h : ℕ)
  | refuse
  | start
  | address
  | done
  | fail
  | disconnect (h : ℕ)
  | other (a : ℕ) (v : UInt8)

/-- A device arrives when none is probed, with memory or not; the probe goes on, or fails; one is
disconnected; what is behind the bitmap is written. -/
inductive Step (s : Usbh) : Act → Usbh → Prop
  | arrive {h : ℕ} (hnew : s.newDev = none) (hh : s.devices h = none) : Step s (.arrive h) (s.allocDevice h)
  | refuse (hnew : s.newDev = none) : Step s .refuse s
  | start {h : ℕ} (hnew : s.newDev = some (h, .posted)) :
      Step s .start (s.update h putAside (some (h, .default)))
  | address {h : ℕ} (hnew : s.newDev = some (h, .default)) :
      Step s .address (s.update h takeBack (some (h, .addressed)))
  | done {h : ℕ} (hnew : s.newDev = some (h, .addressed)) : Step s .done { s with newDev := none }
  | fail {h : ℕ} {pc : ProbePc} (hnew : s.newDev = some (h, pc)) (hpc : pc ≠ .posted) :
      Step s .fail (s.update h (fun d => { d with live := false }) none)
  | disconnect {h : ℕ} {d : UsbhDevice} (hd : s.devices h = some d) : Step s (.disconnect h) (s.disconnect h d)
  | other {a : ℕ} {v : UInt8} (ha : 16 ≤ a) : Step s (.other a v) { s with mem := Function.update s.mem a v }

/-- After `vsfusbh_init`. -/
structure Fresh (s : Usbh) : Prop where
  bitmap : ∀ a < 16, s.mem a = if a = 0 then 1 else 0
  devices : ∀ h, s.devices h = none
  newDev : s.newDev = none
  words : s.words = 0

def system : System Usbh Act where
  start := Fresh
  step := Step

end Usbh

/-- The address of a device, also while it is put aside. -/
def UsbhDevice.addr (d : UsbhDevice) : UInt8 := if d.devnum = 0 then d.devnumTemp else d.devnum

namespace Usbh

/-- A live device has the address. -/
def Taken (s : Usbh) (a : ℕ) : Prop := ∃ h d, s.devices h = some d ∧ d.live = true ∧ d.addr.toNat = a

/-- What is asked of the addresses. -/
structure Right (s : Usbh) : Prop where
  range : ∀ h d, s.devices h = some d → d.live = true → 1 ≤ d.addr.toNat ∧ d.addr.toNat ≤ 127
  apart : ∀ h h' d d', s.devices h = some d → s.devices h' = some d' → d.live = true → d'.live = true →
    d.addr = d'.addr → h = h'
  bits : ∀ a < 128, flag s.mem 0 a = true ↔ a = 0 ∨ s.Taken a
  words : s.words ≤ 4

/-- An address is free for an arriving device, no probe fails, and no probed device is disconnected. -/
def Meets (s : Usbh) : Act → Prop
  | .arrive _ => ∃ a < 128, flag s.mem 0 a = false
  | .fail => False
  | .disconnect h => ∀ pc, s.newDev ≠ some (h, pc)
  | _ => True

/-! ### What is kept -/

/-- Where a device's number is. -/
def Numbered (s : Usbh) (h : ℕ) (d : UsbhDevice) : Prop :=
  if s.newDev = some (h, .default) then d.devnum = 0 ∧ d.devnumTemp ≠ 0 else d.devnum ≠ 0

structure Inv (s : Usbh) : Prop where
  right : s.Right
  live : ∀ h d, s.devices h = some d → d.live = true
  numbered : ∀ h d, s.devices h = some d → s.Numbered h d

variable {s : Usbh}

theorem allocDevice_spec (hbit : flag s.mem 0 0 = true) (hfree : ∃ a < 128, flag s.mem 0 a = false) (hw : s.words ≤ 4)
    (h : ℕ) : ∃ k, 1 ≤ k ∧ k < 128 ∧ flag s.mem 0 k = false ∧ ∃ w ≤ 4, s.allocDevice h =
      { mem := mskarrSet s.mem 0 k
        devices := Function.update s.devices h (some { devnum := UInt8.ofNat k, devnumTemp := 0, live := true })
        newDev := some (h, .posted)
        words := w } := by
  obtain ⟨a, ha, hclear⟩ := hfree
  rcases mskarrFfz_cases s.mem 0 maxDevice with ⟨-, hall⟩ | ⟨k, -, hk, h0, hlow⟩
  · rw [hall a (by unfold maxDevice; omega)] at hclear
    cases hclear
  · have hka : k ≤ a := by
      by_contra hlt
      rw [hlow a (by omega)] at hclear
      cases hclear
    have hpos : 1 ≤ k := by
      rcases eq_zero_or_pos k with rfl | hpos
      · rw [hbit] at h0
        cases h0
      · exact hpos
    have hnum : UInt8.ofInt (mskarrFfz s.mem 0 maxDevice) = UInt8.ofNat k := by
      rw [hk]
      apply UInt8.toNat_inj.mp
      rw [UInt8.ofInt, UInt8.toNat_ofNat', UInt8.toNat_ofNat']
      omega
    have htoNat : (UInt8.ofNat k).toNat = k := by
      rw [UInt8.toNat_ofNat', Nat.mod_eq_of_lt (by omega)]
    have hne : UInt8.ofNat k ≠ 0 := by
      intro hz
      rw [hz] at htoNat
      have : k = 0 := htoNat.symm
      omega
    have hlooked : looked s.mem = k / 32 + 1 := by
      rw [looked, hk, if_pos (Int.natCast_nonneg k), Int.toNat_natCast]
    refine ⟨k, hpos, by omega, h0, max (max s.words (k / 32 + 1)) (k / 32 + 1), by omega, ?_⟩
    rw [allocDevice, hnum, if_neg hne, htoNat, hlooked]

theorem device_cases {f : ℕ → Option UsbhDevice} {i j : ℕ} {v : Option UsbhDevice} {d : UsbhDevice}
    (h : Function.update f i v j = some d) : (j = i ∧ v = some d) ∨ (j ≠ i ∧ f j = some d) := by
  by_cases hji : j = i
  · subst hji
    rw [update_self] at h
    exact .inl ⟨rfl, h⟩
  · rw [update_of_ne hji] at h
    exact .inr ⟨hji, h⟩

/-- The device that arrives has an address nobody has. -/
theorem Inv.arrive (h : s.Inv) {i : ℕ} (hi : s.devices i = none) (hnew : s.newDev = none)
    (hfree : ∃ a < 128, flag s.mem 0 a = false) : (s.allocDevice i).Inv := by
  have hbit : flag s.mem 0 0 = true := (h.right.bits 0 (by omega)).mpr (.inl rfl)
  obtain ⟨k, hk1, hk2, hk0, w, hw, heq⟩ := allocDevice_spec hbit hfree h.right.words i
  have hnum : (UInt8.ofNat k).toNat = k := by
    rw [UInt8.toNat_ofNat', Nat.mod_eq_of_lt (by omega)]
  have hne : UInt8.ofNat k ≠ 0 := by
    intro hz
    rw [hz] at hnum
    have : k = 0 := hnum.symm
    omega
  have haddr : (UsbhDevice.addr { devnum := UInt8.ofNat k, devnumTemp := 0, live := true }).toNat = k := by
    rw [UsbhDevice.addr, if_neg hne]
    exact hnum
  -- nobody has the address whose bit is clear
  have hnobody : ∀ j d, s.devices j = some d → d.addr.toNat ≠ k := by
    intro j d hj hjk
    rw [(h.right.bits k hk2).mpr (.inr ⟨j, d, hj, h.live j d hj, hjk⟩)] at hk0
    cases hk0
  rw [heq]
  refine ⟨⟨?_, ?_, ?_, hw⟩, ?_, ?_⟩
  · intro j d hj hlive
    rcases device_cases hj with ⟨-, hd⟩ | ⟨-, hj⟩
    · obtain rfl := some.inj hd
      rw [haddr]
      omega
    · exact h.right.range j d hj hlive
  · intro j j' d d' hj hj' hlive hlive' hsame
    rcases device_cases hj with ⟨hji, hd⟩ | ⟨-, hold⟩
    · rcases device_cases hj' with ⟨hji', -⟩ | ⟨-, hold'⟩
      · exact hji.trans hji'.symm
      · obtain rfl := some.inj hd
        exact absurd (by rw [← hsame, haddr]) (hnobody j' d' hold')
    · rcases device_cases hj' with ⟨-, hd'⟩ | ⟨-, hold'⟩
      · obtain rfl := some.inj hd'
        exact absurd (by rw [hsame, haddr]) (hnobody j d hold)
      · exact h.right.apart j j' d d' hold hold' hlive hlive' hsame
  · intro a ha
    show flag (mskarrSet s.mem 0 k) 0 a = true ↔ _
    rw [flag_mskarrSet]
    constructor
    · intro hset
      by_cases hak : a = k
      · exact .inr ⟨i, _, update_self i _ s.devices, rfl, haddr.trans hak.symm⟩
      · rw [if_neg hak] at hset
        refine ((h.right.bits a ha).mp hset).imp id ?_
        rintro ⟨j, d, hj, hlive, hja⟩
        have hji : j ≠ i := by
          rintro rfl
          rw [hi] at hj
          cases hj
        exact ⟨j, d, (update_of_ne hji _ s.devices).trans hj, hlive, hja⟩
    · rintro (rfl | ⟨j, d, hj, hlive, hja⟩)
      · rw [hbit, ite_self]
      · rcases device_cases hj with ⟨-, hd⟩ | ⟨-, hj⟩
        · obtain rfl := some.inj hd
          rw [if_pos (hja.symm.trans haddr)]
        · rw [(h.right.bits a ha).mpr (.inr ⟨j, d, hj, hlive, hja⟩), ite_self]
  · intro j d hj
    rcases device_cases hj with ⟨-, hd⟩ | ⟨-, hj⟩
    · obtain rfl := some.inj hd
      rfl
    · exact h.live j d hj
  · intro j d hj
    unfold Numbered
    rw [if_neg (by simp)]
    rcases device_cases hj with ⟨-, hd⟩ | ⟨-, hj⟩
    · obtain rfl := some.inj hd
      exact hne
    · have := h.numbered j d hj
      unfold Numbered at this
      rwa [hnew, if_neg (by simp)] at this

theorem Right.update (h : s.Right) {i : ℕ} {f : UsbhDevice → UsbhDevice} {pc : Option (ℕ × ProbePc)}
    (hf : ∀ d, s.devices i = some d → (f d).live = d.live ∧ (f d).addr = d.addr) :
    (s.update i f pc).Right := by
  -- each device is there with the same address
  have hback : ∀ j d, (s.update i f pc).devices j = some d → ∃ d₀, s.devices j = some d₀ ∧ d.live = d₀.live ∧ d.addr = d₀.addr := by
    intro j d hj
    rcases device_cases hj with ⟨rfl, hd⟩ | ⟨-, hj⟩
    · obtain ⟨d₀, hd₀, rfl⟩ := map_eq_some_iff.mp hd
      exact ⟨d₀, hd₀, hf d₀ hd₀⟩
    · exact ⟨d, hj, rfl, rfl⟩
  have hforth : ∀ j d₀, s.devices j = some d₀ → ∃ d, (s.update i f pc).devices j = some d ∧ d.live = d₀.live ∧ d.addr = d₀.addr := by
    intro j d₀ hj
    by_cases hji : j = i
    · subst hji
      have hsame : (s.update j f pc).devices j = (s.devices j).map f := update_self j _ s.devices
      exact ⟨f d₀, by rw [hsame, hj]; rfl, hf d₀ hj⟩
    · exact ⟨d₀, (update_of_ne hji _ s.devices).trans hj, rfl, rfl⟩
  refine ⟨?_, ?_, ?_, h.words⟩
  · intro j d hj hlive
    obtain ⟨d₀, hj₀, hl, ha⟩ := hback j d hj
    rw [ha]
    exact h.range j d₀ hj₀ (hl ▸ hlive)
  · intro j j' d d' hj hj' hlive hlive' hsame
    obtain ⟨d₀, hj₀, hl, ha⟩ := hback j d hj
    obtain ⟨d₀', hj₀', hl', ha'⟩ := hback j' d' hj'
    exact h.apart j j' d₀ d₀' hj₀ hj₀' (hl ▸ hlive) (hl' ▸ hlive') (ha ▸ ha' ▸ hsame)
  · intro a ha
    rw [show flag (s.update i f pc).mem 0 a = flag s.mem 0 a from rfl, h.bits a ha]
    refine or_congr Iff.rfl ⟨?_, ?_⟩
    · rintro ⟨j, d₀, hj₀, hlive, hja⟩
      obtain ⟨d, hj, hl, haddr⟩ := hforth j d₀ hj₀
      exact ⟨j, d, hj, hl ▸ hlive, haddr ▸ hja⟩
    · rintro ⟨j, d, hj, hlive, hja⟩
      obtain ⟨d₀, hj₀, hl, haddr⟩ := hback j d hj
      exact ⟨j, d₀, hj₀, hl ▸ hlive, haddr ▸ hja⟩

theorem numbered_other {j : ℕ} {d : UsbhDevice} (h : s.newDev ≠ some (j, .default)) : s.Numbered j d ↔ d.devnum ≠ 0 := by
  unfold Numbered
  rw [if_neg h]

theorem Inv.start (h : s.Inv) {i : ℕ} (hnew : s.newDev = some (i, .posted)) :
    (s.update i putAside (some (i, .default))).Inv := by
  have hnum : ∀ j d, s.devices j = some d → d.devnum ≠ 0 := fun j d hj =>
    (numbered_other (by rw [hnew]; simp)).mp (h.numbered j d hj)
  refine ⟨h.right.update fun d hd => ⟨rfl, ?_⟩, fun j d hj => ?_, fun j d hj => ?_⟩
  · rw [UsbhDevice.addr, UsbhDevice.addr, if_neg (hnum i d hd)]
    exact if_pos rfl
  · rcases device_cases hj with ⟨rfl, hd⟩ | ⟨-, hj⟩
    · obtain ⟨d₀, hd₀, rfl⟩ := map_eq_some_iff.mp hd
      exact h.live j d₀ hd₀
    · exact h.live j d hj
  · rcases device_cases hj with ⟨rfl, hd⟩ | ⟨hji, hj⟩
    · obtain ⟨d₀, hd₀, rfl⟩ := map_eq_some_iff.mp hd
      have hnew' : (s.update j putAside (some (j, .default))).newDev = some (j, .default) := rfl
      unfold Numbered
      rw [if_pos hnew']
      exact ⟨rfl, hnum j d₀ hd₀⟩
    · refine (numbered_other ?_).mpr (hnum j d hj)
      show some (i, ProbePc.default) ≠ some (j, ProbePc.default)
      simpa using Ne.symm hji

theorem Inv.address (h : s.Inv) {i : ℕ} (hnew : s.newDev = some (i, .default)) :
    (s.update i takeBack (some (i, .addressed))).Inv := by
  have hown : ∀ d, s.devices i = some d → d.devnum = 0 ∧ d.devnumTemp ≠ 0 := by
    intro d hd
    have := h.numbered i d hd
    unfold Numbered at this
    rwa [if_pos hnew] at this
  refine ⟨h.right.update fun d hd => ⟨rfl, ?_⟩, fun j d hj => ?_, fun j d hj => ?_⟩
  · obtain ⟨h0, htemp⟩ := hown d hd
    rw [UsbhDevice.addr, UsbhDevice.addr, if_pos h0]
    exact if_neg htemp
  · rcases device_cases hj with ⟨rfl, hd⟩ | ⟨-, hj⟩
    · obtain ⟨d₀, hd₀, rfl⟩ := map_eq_some_iff.mp hd
      exact h.live j d₀ hd₀
    · exact h.live j d hj
  · have hnew' : (s.update i takeBack (some (i, .addressed))).newDev ≠ some (j, .default) := by
      show some (i, ProbePc.addressed) ≠ some (j, ProbePc.default)
      simp
    refine (numbered_other hnew').mpr ?_
    rcases device_cases hj with ⟨rfl, hd⟩ | ⟨hji, hj⟩
    · obtain ⟨d₀, hd₀, rfl⟩ := map_eq_some_iff.mp hd
      exact (hown d₀ hd₀).2
    · refine (numbered_other ?_).mp (h.numbered j d hj)
      rw [hnew]
      simpa using Ne.symm hji

/-- The address of a device that is gone is free. -/
theorem Inv.disconnect (h : s.Inv) {i : ℕ} {d : UsbhDevice} (hd : s.devices i = some d)
    (hnew : ∀ pc, s.newDev ≠ some (i, pc)) : (s.disconnect i d).Inv := by
  have hnum : d.devnum ≠ 0 := (numbered_other (hnew _)).mp (h.numbered i d hd)
  have haddr : d.addr = d.devnum := by rw [UsbhDevice.addr, if_neg hnum]
  have hold : ∀ j d', (s.disconnect i d).devices j = some d' → j ≠ i ∧ s.devices j = some d' := by
    intro j d' hj
    rcases device_cases hj with ⟨-, hd⟩ | hold
    · cases hd
    · exact hold
  refine ⟨⟨?_, ?_, ?_, h.right.words⟩, fun j d' hj => h.live j d' (hold j d' hj).2,
    fun j d' hj => h.numbered j d' (hold j d' hj).2⟩
  · exact fun j d' hj => h.right.range j d' (hold j d' hj).2
  · exact fun j j' d' d'' hj hj' => h.right.apart j j' d' d'' (hold j d' hj).2 (hold j' d'' hj').2
  · intro a ha
    have hmem : (s.disconnect i d).mem = mskarrClr s.mem 0 d.devnum.toNat := if_pos hnum
    rw [hmem, flag_mskarrClr]
    constructor
    · intro hset
      by_cases hak : a = d.devnum.toNat
      · rw [if_pos hak] at hset
        cases hset
      · rw [if_neg hak] at hset
        refine ((h.right.bits a ha).mp hset).imp id ?_
        rintro ⟨j, d', hj, hlive, hja⟩
        have hji : j ≠ i := by
          rintro rfl
          obtain rfl := some.inj (hd.symm.trans hj)
          exact hak (hja.symm.trans (congrArg UInt8.toNat haddr))
        exact ⟨j, d', (update_of_ne hji _ s.devices).trans hj, hlive, hja⟩
    · intro hor
      have hne : a ≠ d.devnum.toNat := by
        rcases hor with rfl | ⟨j, d', hj, hlive, hja⟩
        · intro hz
          exact hnum (UInt8.toNat_inj.mp hz.symm)
        · rintro rfl
          obtain ⟨hji, hj⟩ := hold j d' hj
          have hsame : d'.addr = d.addr := UInt8.toNat_inj.mp (hja.trans (congrArg UInt8.toNat haddr.symm))
          exact hji (h.right.apart j i d' d hj hd hlive (h.live i d hd) hsame)
      rw [if_neg hne, h.right.bits a ha]
      refine hor.imp id ?_
      rintro ⟨j, d', hj, hlive, hja⟩
      exact ⟨j, d', (hold j d' hj).2, hlive, hja⟩

theorem Inv.step (h : s.Inv) {a : Act} {s' : Usbh} (hmeets : s.Meets a) (hstep : Step s a s') : s'.Inv := by
  cases hstep with
  | arrive hnew hi => exact h.arrive hi hnew hmeets
  | refuse => exact h
  | start hnew => exact h.start hnew
  | address hnew => exact h.address hnew
  | @done i hnew =>
    have hnum : ∀ j d, s.devices j = some d → d.devnum ≠ 0 := fun j d hj =>
      (numbered_other (by rw [hnew]; simp)).mp (h.numbered j d hj)
    exact ⟨⟨h.right.range, h.right.apart, h.right.bits, h.right.words⟩, h.live, fun j d hj =>
      (numbered_other (by simp)).mpr (hnum j d hj)⟩
  | fail => exact hmeets.elim
  | disconnect hd => exact h.disconnect hd hmeets
  | @other a v ha =>
    have hflag : ∀ b < 128, flag (Function.update s.mem a v) 0 b = flag s.mem 0 b := fun b hb =>
      flag_congr (n := 4) (fun i _ hi => update_of_ne (by omega) v s.mem) hb
    refine ⟨⟨h.right.range, h.right.apart, fun b hb => ?_, h.right.words⟩, h.live, h.numbered⟩
    rw [show flag ({ s with mem := Function.update s.mem a v } : Usbh).mem 0 b = flag s.mem 0 b from hflag b hb]
    exact h.right.bits b hb

theorem Fresh.inv (h : s.Fresh) : s.Inv := by
  have hnone : ∀ {P : Prop} (j d), s.devices j = some d → P := by
    intro P j d hj
    rw [h.devices] at hj
    cases hj
  refine ⟨⟨fun j d hj => hnone j d hj, fun j j' d d' hj => hnone j d hj, ?_, h.words ▸ Nat.zero_le 4⟩,
    fun j d hj => hnone j d hj, fun j d hj => hnone j d hj⟩
  intro a ha
  have hflag : flag s.mem 0 a = flag (fun i => if i = 0 then 1 else 0) 0 a :=
    flag_congr (n := 4) (fun i _ hi => h.bitmap i hi) ha
  have hinit : ∀ a < 128, flag (fun i => if i = 0 then 1 else 0) 0 a = decide (a = 0) := by decide
  rw [hflag, hinit a ha, decide_eq_true_iff]
  refine ⟨.inl, ?_⟩
  rintro (h0 | ⟨j, d, hj, -, -⟩)
  · exact h0
  · exact hnone j d hj

/-- **The addresses**, in a run in which each arriving device finds one, no probe fails, and no probed
device is disconnected. -/
theorem addresses_right (hr : (system.restrict Meets).Reach s) : s.Right := by
  have hinv : s.Inv := hr.invariant (fun s h0 => h0.inv) fun _ _ _ _ hinv hstep => hinv.step hstep.1 hstep.2
  exact hinv.right

/-- No device yet. -/
def empty : Usbh where
  mem := fun i => if i = 0 then 1 else 0
  devices := fun _ => none
  newDev := none
  words := 0

theorem empty_fresh : empty.Fresh := ⟨fun _ _ => rfl, fun _ => rfl, rfl, rfl⟩

theorem reach_step {a : Act} {s' : Usbh} (h : (system.restrict Meets).Reach s) (hmeets : s.Meets a) (hstep : Step s a s') :
    (system.restrict Meets).Reach s' :=
  .step h ⟨hmeets, hstep⟩

/-- Two devices arrive, and the first one is gone. -/
theorem addresses_right_two :
    let s₁ := empty.allocDevice 0
    let s₂ := s₁.update 0 putAside (some (0, .default))
    let s₃ := s₂.update 0 takeBack (some (0, .addressed))
    let s₄ := { s₃ with newDev := none }
    let s₅ := s₄.allocDevice 1
    let s₆ := s₅.disconnect 0 { devnum := 1, devnumTemp := 1, live := true }
    s₆.Right ∧ (s₆.devices 1).map UsbhDevice.addr = some 2 := by
  refine ⟨addresses_right ?_, by decide +kernel⟩
  have h₁ : (system.restrict Meets).Reach (empty.allocDevice 0) :=
    reach_step (a := .arrive 0) (.start empty_fresh) ⟨1, by decide, by decide +kernel⟩ (.arrive rfl rfl)
  have h₂ := reach_step (a := .start) h₁ trivial (.start (h := 0) (by decide +kernel))
  have h₃ := reach_step (a := .address) h₂ trivial (.address (h := 0) rfl)
  have h₄ := reach_step (a := .done) h₃ trivial (.done (h := 0) rfl)
  have h₅ := reach_step (a := .arrive 1) h₄ ⟨2, by decide, by decide +kernel⟩ (.arrive (h := 1) rfl rfl)
  exact reach_step (a := .disconnect 0) h₅ (fun pc hpc => by cases hpc) (.disconnect (by rfl))

/-- Address 1 stays set when a probe fails, and when a device is disconnected with its number put aside. -/
theorem addresses_lost : (∃ s, system.Reach s ∧ s.newDev = none ∧ ¬s.Right) ∧
    ∃ s, system.Reach s ∧ (∀ h, s.devices h = none) ∧ ¬s.Right := by
  have h₁ : system.Reach (empty.allocDevice 0) :=
    .step (i := .arrive 0) (.start empty_fresh) (show Step _ _ _ from .arrive rfl rfl)
  have hstart : Step (empty.allocDevice 0) .start _ := .start (h := 0) (by decide +kernel)
  have h₂ := System.Reach.step h₁ hstart
  constructor
  · have hfail : Step (Usbh.update (empty.allocDevice 0) 0 putAside (some (0, .default))) .fail _ :=
      .fail (h := 0) rfl (by decide)
    have h₃ := System.Reach.step h₂ hfail
    refine ⟨_, h₃, rfl, fun h => ?_⟩
    rcases (h.bits 1 (by decide)).mp (by decide +kernel) with h0 | ⟨j, d, hj, hlive, -⟩
    · cases h0
    · rcases device_cases hj with ⟨-, hd⟩ | ⟨hj0, hj⟩
      · obtain ⟨d₀, -, rfl⟩ := map_eq_some_iff.mp hd
        cases hlive
      · rcases device_cases hj with ⟨h0, -⟩ | ⟨-, hj⟩
        · exact hj0 h0
        · rcases device_cases (show Function.update empty.devices 0 _ j = some d from hj) with ⟨h0, -⟩ | ⟨-, hj⟩
          · exact hj0 h0
          · cases hj
  · have hgone : Step (Usbh.update (empty.allocDevice 0) 0 putAside (some (0, .default))) (.disconnect 0) _ :=
      .disconnect (d := { devnum := 0, devnumTemp := 1, live := true }) (by rfl)
    have h₃ := System.Reach.step h₂ hgone
    refine ⟨_, h₃, fun j => ?_, fun h => ?_⟩
    · by_cases h0 : j = 0
      · subst h0
        rfl
      · have hold := (update_of_ne h0 none (Usbh.update (empty.allocDevice 0) 0 putAside (some (0, .default))).devices).trans
          (update_of_ne h0 _ (empty.allocDevice 0).devices)
        exact hold.trans (update_of_ne h0 _ empty.devices)
    · rcases (h.bits 1 (by decide)).mp (by decide +kernel) with h0 | ⟨j, d, hj, -, -⟩
      · cases h0
      · rcases device_cases hj with ⟨-, hd⟩ | ⟨hj0, hj⟩
        · cases hd
        · rcases device_cases hj with ⟨h0, -⟩ | ⟨-, hj⟩
          · exact hj0 h0
          · rcases device_cases (show Function.update empty.devices 0 _ j = some d from hj) with ⟨h0, -⟩ | ⟨-, hj⟩
            · exact hj0 h0
            · cases hj

end Usbh
end Vsf
