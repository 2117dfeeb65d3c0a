/-
# The endpoints of vsfusbd.c

The device's state machine is driven by words in one event queue, from the hardware
(`VSFUSBD_INTEVT_IN`, `VSFUSBD_INTEVT_OUT`) and the streams of transfers (`VSFUSBD_STREAM_IN` and
the others). A word is a kind and an endpoint number, taken apart by masks in `vsfusbd_evt_handler`.
-/
import Mathlib

namespace Vsf.Usbd

/-! ### Event words -/

/-- The kinds of events of an endpoint. -/
inductive Kind where
  /-- `VSFUSBD_INTEVT_IN`: the packet has been sent. -/
  | intIn
  /-- `VSFUSBD_INTEVT_OUT`: a packet has been received. -/
  | intOut
  /-- `VSFUSBD_STREAM_IN`: there are bytes in the stream. -/
  | streamIn
  /-- `VSFUSBD_STREAM_OUT`: there is room in the stream. -/
  | streamOut
  /-- `VSFUSBD_STREAM_CLOSE_IN`: the writer of the stream left. -/
  | closeIn
  /-- `VSFUSBD_STREAM_CLOSE_OUT`: the reader of the stream left. -/
  | closeOut
  deriving DecidableEq, Repr

namespace Kind

/-- `VSFUSBD_INTEVT_IN` and the others, over `VSFSM_EVT_USER_LOCAL`. -/
def base : Kind → UInt32
  | intIn => 0x4030
  | intOut => 0x4020
  | streamIn => 0x4050
  | streamOut => 0x4040
  | closeIn => 0x4070
  | closeOut => 0x4060

/-- The word posted for an endpoint. -/
def word (k : Kind) (ep : UInt32) : UInt32 := k.base ||| ep

/-- The `switch` over `evt & VSFUSBD_EVT_EVT_MASK`. -/
def ofBase (evt : UInt32) : Option Kind :=
  if evt = 0x4070 then some closeIn
  else if evt = 0x4050 then some streamIn
  else if evt = 0x4060 then some closeOut
  else if evt = 0x4040 then some streamOut
  else if evt = 0x4030 then some intIn
  else if evt = 0x4020 then some intOut
  else none

end Kind

/-- How `vsfusbd_evt_handler` reads a word: endpoint and kind, none for those nothing listens to. -/
def decode (evt : UInt32) : Option (UInt32 × Kind) :=
  if evt &&& ~~~0xFF = 0x4100 then none
  else (Kind.ofBase (evt &&& ~~~0xF)).map fun k => (evt &&& 0xF, k)

theorem decode_word (k : Kind) {ep : UInt32} (h : ep ≤ 15) : decode (k.word ep) = some (ep, k) := by
  have hall : ∀ n < 16, ∀ k ∈ [Kind.intIn, .intOut, .streamIn, .streamOut, .closeIn, .closeOut],
      decode (Kind.word k (UInt32.ofNat n)) = some (UInt32.ofNat n, k) := by decide +kernel
  have hlt : ep.toNat < 16 := by
    have := UInt32.le_iff_toNat_le.mp h
    simp only [UInt32.reduceToNat] at this
    omega
  have hep := hall ep.toNat hlt k (by cases k <;> simp)
  rwa [UInt32.ofNat_toNat] at hep

/-! ### Sizes -/

/-- `min(ep_size, transact->data_size)` in a `uint16_t`. -/
def pkgSize (epSize : UInt16) (dataSize : UInt32) : UInt16 :=
  (if epSize.toUInt32 < dataSize then epSize.toUInt32 else dataSize).toUInt16

@[simp] theorem pkgSize_toNat (epSize : UInt16) (dataSize : UInt32) :
    (pkgSize epSize dataSize).toNat = min epSize.toNat dataSize.toNat := by
  have hep := epSize.toNat_lt
  have hlt : epSize.toUInt32 < dataSize ↔ epSize.toNat < dataSize.toNat := by
    rw [UInt32.lt_iff_toNat_lt, UInt16.toNat_toUInt32]
  by_cases h : epSize.toNat < dataSize.toNat
  · simp [pkgSize, hlt, h, min_eq_left h.le]
  · simp only [pkgSize, hlt, h, if_false, UInt32.toNat_toUInt16]
    omega

end Vsf.Usbd
