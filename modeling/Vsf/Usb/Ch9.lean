/-
# Standard requests

`vsfusbd_stdctrl_prepare` answers a standard request, `vsfusbd_stdctrl_process` carries it out after
its status stage. `Host` is what the host was told since the last reset. An answer is not what it
was told in these cases (`answer_right_iff`): remote wakeup in `GET_STATUS`, `GET_CONFIGURATION`
with two bytes or none selected, and `GET_STATUS` of an endpoint.
-/
import Mathlib
import Vsf.Lib.System

namespace Vsf
namespace Usbd

open List Option

/-! ### Requests -/

/-- `struct usb_ctrlrequest_t`. -/
structure Request where
  bRequestType : UInt8
  bRequest : UInt8
  wValue : UInt16
  wIndex : UInt16
  wLength : UInt16
deriving DecidableEq

/-- The recipients of `bRequestType`. -/
inductive Recip
  | device
  | iface
  | endpoint
deriving DecidableEq

/-- The standard requests that are answered. -/
inductive StdReq
  | getStatus
  | clearFeature
  | setFeature
  | setAddress
  | getDescriptor
  | getConfiguration
  | setConfiguration
  | getInterface
  | setInterface
deriving DecidableEq

/-- `USB_REQ_GET_STATUS` and the others. -/
def StdReq.ofCode (code : UInt8) : Option StdReq :=
  if code = 0 then some getStatus
  else if code = 1 then some clearFeature
  else if code = 3 then some setFeature
  else if code = 5 then some setAddress
  else if code = 6 then some getDescriptor
  else if code = 8 then some getConfiguration
  else if code = 9 then some setConfiguration
  else if code = 10 then some getInterface
  else if code = 11 then some setInterface
  else none

namespace Request

variable (r : Request)

/-- `USB_RECIP_MASK`. -/
def recip : Option Recip :=
  if r.bRequestType &&& 0x1f = 0 then some .device
  else if r.bRequestType &&& 0x1f = 1 then some .iface
  else if r.bRequestType &&& 0x1f = 2 then some .endpoint
  else none

/-- `USB_DIR_IN`. -/
def isIn : Bool := r.bRequestType &&& 0x80 = 0x80

/-- `USB_TYPE_STANDARD`. -/
def isStandard : Bool := r.bRequestType &&& 0x60 = 0

def kind : Option StdReq := StdReq.ofCode r.bRequest

/-- The interface that is meant. -/
def ifaceIdx : ℕ := (r.wIndex &&& 0xff).toNat

/-- The endpoint that is meant, and its direction. -/
def epNum : ℕ := (r.wIndex &&& 0x7f).toNat

def epIn : Bool := r.wIndex &&& 0x80 ≠ 0

end Request

/-! ### The device -/

/-- The functions of a class that standard requests call. -/
structure ClassProtocol where
  getDesc : Option (UInt8 → UInt8 → Option (List UInt8))
  requestPrepare : Option (Request → List UInt8)

/-- `struct vsfusbd_config_t`: its value, and the class of each interface. -/
structure Config where
  value : UInt8
  ifaces : List (Option ClassProtocol)

/-- `struct vsfusbd_desc_filter_t`. -/
structure Desc where
  type : UInt8
  index : UInt8
  lanid : UInt16
  bytes : List UInt8

/-- What stays: there is a configuration; the table ends at the first empty descriptor. -/
structure Board where
  configs : List Config
  filter : List Desc
  epNum : ℕ
  nonempty : configs ≠ []

namespace Board

variable (b : Board)

/-- `vsfusbd_device_get_descriptor`. -/
def getDescriptor (type index : UInt8) (lanid : UInt16) : Option (List UInt8) :=
  ((b.filter.takeWhile fun d => d.bytes ≠ []).find? fun d => d.type = type ∧ d.index = index ∧ d.lanid = lanid).map (·.bytes)

/-- `vsfusbd_get_config`. -/
def getConfig (value : UInt8) : Option ℕ := b.configs.findIdx? (·.value = value)

/-- `device->config[i]`. -/
def config (i : ℕ) : Config := b.configs.getD i ⟨0, []⟩

/-- The interfaces of the configuration with a value. -/
def numOfIfaces (value : UInt8) : ℕ := ((b.getConfig value).map fun i => (b.config i).ifaces.length).getD 0

end Board

/-- `struct vsfusbd_device_t`, `ctrl_handler` and the stalls; `pending` awaits its status stage. -/
structure Device where
  address : UInt8
  configured : Bool
  configuration : ℕ
  feature : UInt8
  alternateSetting : ℕ → ℕ → UInt8
  inStall : ℕ → Bool
  outStall : ℕ → Bool
  request : Request
  replyBuffer : UInt8 × UInt8
  dataSize : ℕ
  pending : Bool

/-- What a function called at `SET_CONFIGURATION` returned; none succeeds. -/
structure Inits where
  config : Bool
  iface : ℕ → Bool

/-- What is sent in answer to a SETUP packet. -/
inductive Reply
  | stall
  | data (bytes : List UInt8)
  | status
deriving DecidableEq

namespace Device

variable (b : Board) (d : Device)

/-- One byte of `reply_buffer` is written. -/
def reply1 (x : UInt8) : Device := { d with replyBuffer := (x, d.replyBuffer.2) }

def reply2 (x y : UInt8) : Device := { d with replyBuffer := (x, y) }

/-- The first bytes of `reply_buffer`. -/
def replied (n : ℕ) : List UInt8 := [d.replyBuffer.1, d.replyBuffer.2].take n

/-- The requests to the device. The bytes are those of `bufstream`. -/
def prepareDevice (r : Request) : Option (Device × List UInt8) :=
  match r.kind with
  | some .getStatus =>
    if r.wValue ≠ 0 ∨ r.wIndex ≠ 0 then none
    else some (d.reply2 d.feature 0, (d.reply2 d.feature 0).replied 2)
  | some .clearFeature =>
    if r.wIndex ≠ 0 ∨ r.wValue ≠ 1 then none
    else some ({ d with feature := d.feature &&& ~~~0x20 }, [])
  | some .setFeature =>
    if r.wIndex ≠ 0 ∨ r.wValue ≠ 1 then none
    else some ({ d with feature := d.feature ||| 0x20 }, [])
  | some .setAddress =>
    if 127 < r.wValue ∨ r.wIndex ≠ 0 ∨ d.configuration ≠ 0 then none else some (d, [])
  | some .getDescriptor =>
    (b.getDescriptor (r.wValue >>> 8).toUInt8 r.wValue.toUInt8 r.wIndex).map fun bytes => (d, bytes)
  | some .getConfiguration =>
    if r.wValue ≠ 0 ∨ r.wIndex ≠ 0 then none
    else
      let d := d.reply1 (b.config d.configuration).value
      some (d, d.replied 2)
  | some .setConfiguration =>
    if r.wIndex ≠ 0 ∨ b.getConfig r.wValue.toUInt8 = none then none
    else some ({ d with configured := false }, [])
  | _ => none

/-- The requests to an interface. -/
def prepareIface (r : Request) : Option (Device × List UInt8) :=
  if h : r.ifaceIdx < (b.config d.configuration).ifaces.length then
    let protocol := (b.config d.configuration).ifaces[r.ifaceIdx]
    match r.kind with
    | some .getStatus =>
      if r.wValue ≠ 0 ∨ (b.config d.configuration).ifaces.length ≤ r.wIndex.toNat then none
      else some (d.reply2 0 0, (d.reply2 0 0).replied 2)
    | some .clearFeature => some (d, [])
    | some .setFeature => some (d, [])
    | some .getDescriptor =>
      (protocol.bind (·.getDesc)).bind fun getDesc =>
        (getDesc (r.wValue >>> 8).toUInt8 r.wValue.toUInt8).map fun bytes => (d, bytes)
    | some .getInterface =>
      if r.wValue ≠ 0 then none
      else
        let d := d.reply1 (d.alternateSetting d.configuration r.ifaceIdx)
        some (d, d.replied 1)
    | some .setInterface =>
      let d := { d with alternateSetting := fun c i =>
        if c = d.configuration ∧ i = r.ifaceIdx then r.wValue.toUInt8 else d.alternateSetting c i }
      some (d, ((protocol.bind (·.requestPrepare)).map fun prepare => prepare r).getD [])
    | _ => none
  else none

/-- The requests to an endpoint. -/
def prepareEndpoint (r : Request) : Option (Device × List UInt8) :=
  if r.isIn then none
  else
    match r.kind with
    | some .getStatus =>
      if r.wValue ≠ 0 ∨ b.epNum ≤ r.wIndex.toNat then none
      else
        let stalled := if r.epIn then d.inStall r.epNum else d.outStall r.epNum
        let d := d.reply2 (if stalled then 1 else 0) 0
        some (d, d.replied 2)
    | some .clearFeature =>
      if r.wValue ≠ 0 ∨ b.epNum ≤ r.epNum then none
      else if r.epIn then some ({ d with inStall := Function.update d.inStall r.epNum false }, [])
      else some ({ d with outStall := Function.update d.outStall r.epNum false }, [])
    | _ => none

/-- `vsfusbd_stdctrl_prepare`. -/
def stdctrlPrepare (r : Request) : Option (Device × List UInt8) :=
  match r.recip with
  | some .device => d.prepareDevice b r
  | some .iface => d.prepareIface b r
  | some .endpoint => d.prepareEndpoint b r
  | none => none

/-- The interfaces of a configuration are initialised, until one fails. -/
def initIfaces (ok : ℕ → Bool) (c : ℕ) : List ℕ → Device → Device
  | [], d => { d with configured := true }
  | i :: is, d =>
    let d := { d with alternateSetting := fun c' i' => if c' = c ∧ i' = i then 0 else d.alternateSetting c' i' }
    if ok i then initIfaces ok c is d else d

/-- `vsfusbd_stdctrl_process`; `vsfusbd_auto_init` fails without a descriptor. -/
def stdctrlProcess (inits : Inits) : Device :=
  match d.request.recip, d.request.kind with
  | some .device, some .setAddress => { d with address := d.request.wValue.toUInt8 }
  | some .device, some .setConfiguration =>
    match b.getConfig d.request.wValue.toUInt8 with
    | none => d
    | some c =>
      let d := { d with configuration := c }
      if b.getDescriptor 2 (UInt8.ofNat c) 0 = none then d
      else if inits.config = false then d
      else initIfaces inits.iface c (List.range (b.config c).ifaces.length) d
  | _, _ => d

/-- `VSFUSBD_INTEVT_RESET`. -/
def reset : Device := { d with configured := false, configuration := 0, feature := 0, pending := false }

/-- `VSFUSBD_INTEVT_SETUP`: the data stage has the stream's first bytes, the status stage is armed. -/
def setup (r : Request) : Device × Reply :=
  match ({ d with request := r }).stdctrlPrepare b r with
  | none => ({ d with
      request := r
      pending := false
      inStall := Function.update d.inStall 0 true
      outStall := Function.update d.outStall 0 true }, .stall)
  | some (d, bytes) =>
    let size := min bytes.length r.wLength.toNat
    ({ d with dataSize := size, pending := true }, if r.isIn then .data (bytes.take size) else .status)

/-- The status stage is over. -/
def statusDone (inits : Inits) : Device := { d.stdctrlProcess b inits with pending := false }

end Device

/-! ### What the host was told -/

/-- What the host made of the device since reset: wakeup, the configuration, the settings. -/
structure Host where
  wakeup : Bool
  selected : Option UInt8
  setting : ℕ → UInt16

namespace Host

/-- After a reset. -/
def fresh : Host := ⟨false, none, fun _ => 0⟩

variable (h : Host) (r : Request)

/-- A request was not refused. -/
def accepted : Host :=
  match r.recip, r.kind with
  | some .device, some .setFeature => { h with wakeup := true }
  | some .device, some .clearFeature => { h with wakeup := false }
  | some .iface, some .setInterface => { h with setting := Function.update h.setting r.ifaceIdx r.wValue }
  | _, _ => h

/-- And its status stage was over. -/
def completed : Host :=
  match r.recip, r.kind with
  | some .device, some .setConfiguration => { h with selected := some r.wValue.toUInt8, setting := fun _ => 0 }
  | _, _ => h

end Host

/-- A SETUP packet and its answer, what the host was told, and if the endpoint was halted. -/
structure Answer where
  host : Host
  halted : Bool
  request : Request
  reply : Reply

namespace Request

variable (b : Board) (r : Request)

/-- `GET_STATUS` of the device. -/
def IsDeviceStatus : Prop :=
  r.isIn = true ∧ r.recip = some .device ∧ r.kind = some .getStatus ∧ r.wValue = 0 ∧ r.wIndex = 0

/-- `GET_CONFIGURATION`. -/
def IsGetConfiguration : Prop :=
  r.isIn = true ∧ r.recip = some .device ∧ r.kind = some .getConfiguration ∧ r.wValue = 0 ∧ r.wIndex = 0

/-- `GET_STATUS` of an endpoint that is there. -/
def IsEndpointStatus : Prop :=
  r.isIn = true ∧ r.recip = some .endpoint ∧ r.kind = some .getStatus ∧ r.wValue = 0 ∧ r.epNum < b.epNum

/-- `GET_INTERFACE` of an interface of the configuration `v`. -/
def IsGetInterface (v : UInt8) : Prop :=
  r.isIn = true ∧ r.recip = some .iface ∧ r.kind = some .getInterface ∧ r.wValue = 0 ∧ r.ifaceIdx < b.numOfIfaces v

instance : Decidable r.IsDeviceStatus := by unfold IsDeviceStatus; infer_instance
instance : Decidable r.IsGetConfiguration := by unfold IsGetConfiguration; infer_instance
instance : Decidable (r.IsEndpointStatus b) := by unfold IsEndpointStatus; infer_instance

end Request

/-- **The answer is what the host was told**, and not longer than it asked for. -/
structure Answer.Right (b : Board) (a : Answer) : Prop where
  length : ∀ bytes, a.reply = .data bytes → bytes.length ≤ a.request.wLength.toNat
  status : a.request.IsDeviceStatus → ∀ bytes x, a.reply = .data bytes → bytes.head? = some x →
    (x &&& 2 ≠ 0 ↔ a.host.wakeup = true)
  configuration : a.request.IsGetConfiguration →
    a.reply = .data ([a.host.selected.getD 0].take a.request.wLength.toNat)
  endpoint : a.request.IsEndpointStatus b →
    a.reply = .data ([if a.halted then 1 else 0, 0].take a.request.wLength.toNat)
  iface : ∀ v, a.host.selected = some v → a.request.IsGetInterface b v →
    ∃ x : UInt8, x.toNat = (a.host.setting a.request.ifaceIdx).toNat ∧ a.reply = .data ([x].take a.request.wLength.toNat)

/-! ### The runs -/

/-- The device, what the host was told, and the answers so far. -/
structure Session where
  dev : Device
  host : Host
  answers : List Answer

/-- A reset, a SETUP packet, a status stage's end, or a change of which endpoints are halted. -/
inductive BusAct where
  | reset
  | setup (r : Request)
  | status (inits : Inits)
  | halt (inStall outStall : ℕ → Bool)

namespace Session

variable (b : Board) (s : Session)

/-- The answer to a request. -/
def answer (r : Request) : Answer where
  host := s.host
  halted := if r.epIn then s.dev.inStall r.epNum else s.dev.outStall r.epNum
  request := r
  reply := (s.dev.setup b r).2

def setup (r : Request) : Session where
  dev := (s.dev.setup b r).1
  host := if (s.dev.setup b r).2 = .stall then s.host else s.host.accepted r
  answers := s.answers ++ [s.answer b r]

end Session

/-- The requests are standard ones. -/
inductive BusStep (b : Board) : Session → BusAct → Session → Prop
  | reset {s : Session} : BusStep b s .reset { s with dev := s.dev.reset, host := .fresh }
  | setup {s : Session} (r : Request) (hstd : r.isStandard = true) : BusStep b s (.setup r) (s.setup b r)
  | status {s : Session} (inits : Inits) (hpending : s.dev.pending = true) : BusStep b s (.status inits)
      { s with dev := s.dev.statusDone b inits, host := s.host.completed s.dev.request }
  | halt {s : Session} (inStall outStall : ℕ → Bool) : BusStep b s (.halt inStall outStall)
      { s with dev := { s.dev with inStall := inStall, outStall := outStall } }

/-- The state after `VSFSM_EVT_INIT`. -/
structure BusStart (s : Session) : Prop where
  configured : s.dev.configured = false
  configuration : s.dev.configuration = 0
  feature : s.dev.feature = 0
  pending : s.dev.pending = false
  host : s.host = .fresh
  answers : s.answers = []

def ch9System (b : Board) : System Session BusAct where
  start := BusStart
  step := BusStep b

/-! ### Where it is right -/

/-- On a SETUP packet: wakeup is off when asked for, the configuration is asked for as one byte when
selected, no endpoint is asked if halted, and a setting fits in a byte. -/
structure SetupMeets (b : Board) (s : Session) (r : Request) : Prop where
  status : r.IsDeviceStatus → r.wLength ≠ 0 → s.dev.feature &&& 0x20 = 0
  configuration : r.IsGetConfiguration → r.wLength = 0 ∨
    (r.wLength = 1 ∧ (s.host.selected = none → (b.config 0).value = 0))
  endpoint : ¬ r.IsEndpointStatus b

/-- At the end of `SET_CONFIGURATION` the interfaces not reached have setting 0. -/
def Ch9Meets (b : Board) (s : Session) : BusAct → Prop
  | .setup r => SetupMeets b s r ∧
    (r.recip = some .iface → r.kind = some .setInterface → r.ifaceIdx < (b.config s.dev.configuration).ifaces.length →
      r.wValue < 256)
  | .status inits => s.dev.request.recip = some .device → s.dev.request.kind = some .setConfiguration →
    ∀ c, b.getConfig s.dev.request.wValue.toUInt8 = some c → ∀ i < (b.config c).ifaces.length,
      s.dev.alternateSetting c i = 0 ∨
        (b.getDescriptor 2 (UInt8.ofNat c) 0 ≠ none ∧ inits.config = true ∧ ∀ j < i, inits.iface j = true)
  | _ => True

/-! ### What a request does -/

variable {b : Board} {d d' : Device} {r : Request} {bytes : List UInt8}

/-- What a request that is not refused does to the device. -/
inductive Prepared (b : Board) (d : Device) (r : Request) (d' : Device) : Prop
  | wakeup (on : Bool) (hr : r.recip = some .device)
      (hk : r.kind = some (if on then .setFeature else .clearFeature))
      (hd : d' = { d with feature := if on then d.feature ||| 0x20 else d.feature &&& ~~~0x20 })
  | configuration (hr : r.recip = some .device) (hk : r.kind = some .setConfiguration)
      (hc : b.getConfig r.wValue.toUInt8 ≠ none) (hd : d' = { d with configured := false })
  | setting (hr : r.recip = some .iface) (hk : r.kind = some .setInterface)
      (hi : r.ifaceIdx < (b.config d.configuration).ifaces.length)
      (hd : d' = { d with alternateSetting := fun c i =>
        if c = d.configuration ∧ i = r.ifaceIdx then r.wValue.toUInt8 else d.alternateSetting c i })
  | other (hdevice : r.recip = some .device → r.kind ≠ some .setFeature ∧ r.kind ≠ some .clearFeature ∧
        r.kind ≠ some .setConfiguration)
      (hiface : r.recip = some .iface → r.kind ≠ some .setInterface)
      (hd : d' = { d with replyBuffer := d'.replyBuffer, inStall := d'.inStall, outStall := d'.outStall })

theorem prepareDevice_prepared (hr : r.recip = some .device) (h : d.prepareDevice b r = some (d', bytes)) :
    Prepared b d r d' := by
  unfold Device.prepareDevice at h
  cases hk : r.kind with
  | none => simp [hk] at h
  | some k =>
    cases k with
    | setFeature =>
      simp only [hk, ite_none_left_eq_some] at h
      obtain ⟨-, h⟩ := h
      cases h
      exact .wakeup true hr hk rfl
    | clearFeature =>
      simp only [hk, ite_none_left_eq_some] at h
      obtain ⟨-, h⟩ := h
      cases h
      exact .wakeup false hr hk rfl
    | setConfiguration =>
      simp only [hk, ite_none_left_eq_some, not_or] at h
      obtain ⟨⟨-, hc⟩, h⟩ := h
      cases h
      exact .configuration hr hk hc rfl
    | getStatus | setAddress | getConfiguration =>
      simp only [hk, ite_none_left_eq_some] at h
      obtain ⟨-, h⟩ := h
      cases h
      exact .other (by simp [hk]) (by simp [hr]) rfl
    | getDescriptor =>
      simp only [hk, map_eq_some_iff] at h
      obtain ⟨x, -, h⟩ := h
      cases h
      exact .other (by simp [hk]) (by simp [hr]) rfl
    | getInterface | setInterface => simp [hk] at h

theorem prepareIface_prepared (hr : r.recip = some .iface) (h : d.prepareIface b r = some (d', bytes)) :
    Prepared b d r d' := by
  unfold Device.prepareIface at h
  by_cases hi : r.ifaceIdx < (b.config d.configuration).ifaces.length
  · rw [dif_pos hi] at h
    cases hk : r.kind with
    | none => simp [hk] at h
    | some k =>
      cases k with
      | setInterface =>
        simp only [hk] at h
        cases h
        exact .setting hr hk hi rfl
      | getStatus | getInterface =>
        simp only [hk, ite_none_left_eq_some] at h
        obtain ⟨-, h⟩ := h
        cases h
        exact .other (by simp [hr]) (by simp [hk]) rfl
      | clearFeature | setFeature =>
        simp only [hk] at h
        cases h
        exact .other (by simp [hr]) (by simp [hk]) rfl
      | getDescriptor =>
        simp only [hk, bind_eq_some_iff, map_eq_some_iff] at h
        obtain ⟨_, -, x, -, h⟩ := h
        cases h
        exact .other (by simp [hr]) (by simp [hk]) rfl
      | setAddress | getConfiguration | setConfiguration => simp [hk] at h
  · rw [dif_neg hi] at h
    cases h

theorem prepareEndpoint_prepared (hr : r.recip = some .endpoint) (h : d.prepareEndpoint b r = some (d', bytes)) :
    Prepared b d r d' := by
  have hother : d' = { d with replyBuffer := d'.replyBuffer, inStall := d'.inStall, outStall := d'.outStall } →
      Prepared b d r d' := .other (by simp [hr]) (by simp [hr])
  unfold Device.prepareEndpoint at h
  rw [ite_none_left_eq_some] at h
  obtain ⟨-, h⟩ := h
  cases hk : r.kind with
  | none => simp [hk] at h
  | some k =>
    cases k with
    | getStatus =>
      simp only [hk, ite_none_left_eq_some] at h
      obtain ⟨-, h⟩ := h
      cases h
      exact hother rfl
    | clearFeature =>
      simp only [hk, ite_none_left_eq_some] at h
      obtain ⟨-, h⟩ := h
      split_ifs at h
      · cases h
        exact hother rfl
      · cases h
        exact hother rfl
    | setFeature | setAddress | getDescriptor | getConfiguration | setConfiguration | getInterface | setInterface =>
      simp [hk] at h

theorem stdctrlPrepare_prepared (h : d.stdctrlPrepare b r = some (d', bytes)) : Prepared b d r d' := by
  unfold Device.stdctrlPrepare at h
  cases hr : r.recip with
  | none => simp [hr] at h
  | some recip =>
    cases recip with
    | device => exact prepareDevice_prepared hr (by simpa only [hr] using h)
    | iface => exact prepareIface_prepared hr (by simpa only [hr] using h)
    | endpoint => exact prepareEndpoint_prepared hr (by simpa only [hr] using h)

/-! ### What the device keeps of it -/

/-- **The device has what the host was told.** -/
structure Told (b : Board) (s : Session) : Prop where
  feature : s.dev.feature = if s.host.wakeup then 0x20 else 0
  unselected : s.host.selected = none → s.dev.configuration = 0
  selected : ∀ v, s.host.selected = some v → b.getConfig v = some s.dev.configuration
  setting : s.host.selected ≠ none → ∀ i < (b.config s.dev.configuration).ifaces.length,
    (s.dev.alternateSetting s.dev.configuration i).toNat = (s.host.setting i).toNat
  known : s.dev.pending = true → s.dev.request.recip = some .device → s.dev.request.kind = some .setConfiguration →
    b.getConfig s.dev.request.wValue.toUInt8 ≠ none

variable {s : Session}

theorem wValue_small (h : r.wValue < 256) : r.wValue.toUInt8.toNat = r.wValue.toNat := by
  have hlt : r.wValue.toNat < 256 := by simpa [UInt16.lt_iff_toNat_lt] using h
  rw [UInt16.toNat_toUInt8]
  exact Nat.mod_eq_of_lt hlt

theorem Told.accept (h : Told b s) (hp : Prepared b { s.dev with request := r } r d')
    (hmeets : r.recip = some .iface → r.kind = some .setInterface →
      r.ifaceIdx < (b.config s.dev.configuration).ifaces.length → r.wValue < 256) (size : ℕ) (answers : List Answer) :
    Told b ⟨{ d' with dataSize := size, pending := true }, s.host.accepted r, answers⟩ := by
  cases hp with
  | wakeup on hr hk hd =>
    subst hd
    have hhost : s.host.accepted r = { s.host with wakeup := on } := by
      cases on <;> simp [Host.accepted, hr, hk]
    rw [hhost]
    refine ⟨?_, h.unselected, h.selected, h.setting, ?_⟩
    · show (if on then s.dev.feature ||| 0x20 else s.dev.feature &&& ~~~0x20) = if on then 0x20 else 0
      rw [h.feature]
      cases on <;> cases s.host.wakeup <;> decide
    · intro _ _ hset
      have hset : r.kind = some .setConfiguration := hset
      rw [hk] at hset
      cases on <;> simp at hset
  | configuration hr hk hc hd =>
    subst hd
    have hhost : s.host.accepted r = s.host := by simp [Host.accepted, hr, hk]
    rw [hhost]
    exact ⟨h.feature, h.unselected, h.selected, h.setting, fun _ _ _ => hc⟩
  | setting hr hk hi hd =>
    subst hd
    have hhost : s.host.accepted r = { s.host with setting := Function.update s.host.setting r.ifaceIdx r.wValue } := by
      simp [Host.accepted, hr, hk]
    rw [hhost]
    refine ⟨h.feature, h.unselected, h.selected, fun hsel i hlt => ?_, ?_⟩
    · show (if s.dev.configuration = s.dev.configuration ∧ i = r.ifaceIdx then r.wValue.toUInt8 else
        s.dev.alternateSetting s.dev.configuration i).toNat = (Function.update s.host.setting r.ifaceIdx r.wValue i).toNat
      by_cases heq : i = r.ifaceIdx
      · rw [if_pos ⟨rfl, heq⟩, heq, Function.update_self]
        exact wValue_small (hmeets hr hk hi)
      · rw [if_neg fun hcon => heq hcon.2, Function.update_of_ne heq]
        exact h.setting hsel i hlt
    · intro _ hrecip _
      have hrecip : r.recip = some .device := hrecip
      simp [hr] at hrecip
  | other hdevice hiface hd =>
    have hhost : s.host.accepted r = s.host := by
      unfold Host.accepted
      split
      · rename_i hr hk
        exact absurd hk (hdevice hr).1
      · rename_i hr hk
        exact absurd hk (hdevice hr).2.1
      · rename_i hr hk
        exact absurd hk (hiface hr)
      · rfl
    rw [hhost, hd]
    exact ⟨h.feature, h.unselected, h.selected, h.setting, fun _ hr hk => absurd hk (hdevice hr).2.2⟩

theorem initIfaces_spec (ok : ℕ → Bool) (c n : ℕ) : ∀ (k : ℕ) (d : Device),
    let d' := Device.initIfaces ok c (List.range' k n) d
    d'.feature = d.feature ∧ d'.configuration = d.configuration ∧
    ∀ i < k + n, (i < k → d'.alternateSetting c i = d.alternateSetting c i) ∧
      (d.alternateSetting c i = 0 → d'.alternateSetting c i = 0) ∧
      (k ≤ i → (∀ j < i, ok j = true) → d'.alternateSetting c i = 0) := by
  induction n with
  | zero =>
    intro k d
    exact ⟨rfl, rfl, fun i hi => ⟨fun _ => rfl, id, fun hki _ => absurd hi (by omega)⟩⟩
  | succ n ih =>
    intro k d
    rw [range'_succ]
    dsimp only [Device.initIfaces]
    by_cases hok : ok k = true
    · rw [if_pos hok]
      obtain ⟨hf, hc, hall⟩ := ih (k + 1)
        { d with alternateSetting := fun c' i' => if c' = c ∧ i' = k then 0 else d.alternateSetting c' i' }
      refine ⟨hf, hc, fun i hi => ?_⟩
      obtain ⟨hbelow, hzero, hreach⟩ := hall i (by omega)
      refine ⟨fun hlt => ?_, fun h0 => hzero ?_, fun hle hoks => ?_⟩
      · rw [hbelow (by omega)]
        exact if_neg fun hcon => absurd hcon.2 (by omega)
      · show (if c = c ∧ i = k then 0 else d.alternateSetting c i) = 0
        split_ifs
        · rfl
        · exact h0
      · rcases eq_or_lt_of_le hle with rfl | hlt
        · exact hzero (if_pos ⟨rfl, rfl⟩)
        · exact hreach hlt hoks
    · rw [if_neg hok]
      refine ⟨rfl, rfl, fun i _ => ⟨fun hlt => if_neg fun hcon => absurd hcon.2 (by omega), fun h0 => ?_, fun hle hoks => ?_⟩⟩
      · show (if c = c ∧ i = k then 0 else d.alternateSetting c i) = 0
        split_ifs
        · rfl
        · exact h0
      · rcases eq_or_lt_of_le hle with rfl | hlt
        · exact if_pos ⟨rfl, rfl⟩
        · exact absurd (hoks k hlt) hok

theorem Told.process (h : Told b s) (inits : Inits) (hpending : s.dev.pending = true)
    (hmeets : Ch9Meets b s (.status inits)) :
    Told b { s with dev := s.dev.statusDone b inits, host := s.host.completed s.dev.request } := by
  by_cases hset : s.dev.request.recip = some .device ∧ s.dev.request.kind = some .setConfiguration
  · obtain ⟨hr, hk⟩ := hset
    obtain ⟨c, hc⟩ := ne_none_iff_exists'.mp (h.known hpending hr hk)
    have hall := hmeets hr hk c hc
    have hhost : s.host.completed s.dev.request =
        { s.host with selected := some s.dev.request.wValue.toUInt8, setting := fun _ => 0 } := by
      simp [Host.completed, hr, hk]
    obtain ⟨d', hd', hf, hcfg, halt⟩ : ∃ d', s.dev.stdctrlProcess b inits = d' ∧ d'.feature = s.dev.feature ∧
        d'.configuration = c ∧ ∀ i < (b.config c).ifaces.length, d'.alternateSetting c i = 0 := by
      refine ⟨_, rfl, ?_⟩
      simp only [Device.stdctrlProcess, hr, hk, hc]
      by_cases hdesc : b.getDescriptor 2 (UInt8.ofNat c) 0 = none
      · rw [if_pos hdesc]
        exact ⟨rfl, rfl, fun i hi => (hall i hi).resolve_right fun hcon => hcon.1 hdesc⟩
      · rw [if_neg hdesc]
        by_cases hinit : inits.config = false
        · rw [if_pos hinit]
          exact ⟨rfl, rfl, fun i hi => (hall i hi).resolve_right fun hcon => by simp [hinit] at hcon⟩
        · rw [if_neg hinit, range_eq_range']
          obtain ⟨hf, hcfg, hspec⟩ := initIfaces_spec inits.iface c (b.config c).ifaces.length 0 { s.dev with configuration := c }
          refine ⟨hf, hcfg, fun i hi => ?_⟩
          obtain ⟨-, hzero, hreach⟩ := hspec i (by omega)
          rcases hall i hi with h0 | ⟨-, -, hoks⟩
          · exact hzero h0
          · exact hreach (Nat.zero_le i) hoks
    rw [hhost, Device.statusDone, hd']
    refine ⟨?_, fun hcon => absurd hcon (by simp), fun v hv => ?_, fun _ i hi => ?_, fun hcon => absurd hcon (by simp)⟩
    · show d'.feature = _
      rw [hf]
      exact h.feature
    · cases hv
      show _ = some d'.configuration
      rw [hcfg]
      exact hc
    · have hi : i < (b.config d'.configuration).ifaces.length := hi
      show (d'.alternateSetting d'.configuration i).toNat = 0
      rw [hcfg] at hi ⊢
      rw [halt i hi]
      rfl
  · have hhost : s.host.completed s.dev.request = s.host := by
      unfold Host.completed
      split
      · rename_i hr hk
        exact absurd ⟨hr, hk⟩ hset
      · rfl
    have hdev : s.dev.stdctrlProcess b inits = { s.dev with address := (s.dev.stdctrlProcess b inits).address } := by
      unfold Device.stdctrlProcess
      split
      · rfl
      · rename_i hr hk
        exact absurd ⟨hr, hk⟩ hset
      · rfl
    rw [hhost, Device.statusDone, hdev]
    exact ⟨h.feature, h.unselected, h.selected, h.setting, fun hcon => absurd hcon (by simp)⟩

/-! ### The answers -/

theorem setup_data (hin : r.isIn = true) (hprep : ({ d with request := r } : Device).stdctrlPrepare b r = some (d', bytes)) :
    (d.setup b r).2 = .data (bytes.take r.wLength.toNat) := by
  simp only [Device.setup, hprep, hin, if_true, ← take_eq_take_min, min_comm bytes.length]

theorem setup_length {bs : List UInt8} (h : (d.setup b r).2 = .data bs) : bs.length ≤ r.wLength.toNat := by
  unfold Device.setup at h
  split at h
  · cases h
  · dsimp only at h
    split_ifs at h
    cases h
    rw [length_take]
    omega

theorem setup_deviceStatus (h : r.IsDeviceStatus) : (d.setup b r).2 = .data ([d.feature, 0].take r.wLength.toNat) := by
  obtain ⟨hin, hr, hk, hv, hi⟩ := h
  refine setup_data hin (show Device.stdctrlPrepare b { d with request := r } r =
    some (({ d with request := r } : Device).reply2 d.feature 0, [d.feature, 0]) from ?_)
  simp [Device.stdctrlPrepare, Device.prepareDevice, hr, hk, hv, hi, Device.replied, Device.reply2]

theorem setup_getConfiguration (h : r.IsGetConfiguration) :
    (d.setup b r).2 = .data ([(b.config d.configuration).value, d.replyBuffer.2].take r.wLength.toNat) := by
  obtain ⟨hin, hr, hk, hv, hi⟩ := h
  refine setup_data hin (show Device.stdctrlPrepare b { d with request := r } r =
    some (({ d with request := r } : Device).reply1 (b.config d.configuration).value,
      [(b.config d.configuration).value, d.replyBuffer.2]) from ?_)
  simp [Device.stdctrlPrepare, Device.prepareDevice, hr, hk, hv, hi, Device.replied, Device.reply1]

/-- Requests to an endpoint that come from it are refused. -/
theorem setup_endpointStatus (h : r.IsEndpointStatus b) : (d.setup b r).2 = .stall := by
  obtain ⟨hin, hr, -⟩ := h
  simp [Device.setup, Device.stdctrlPrepare, Device.prepareEndpoint, hr, hin]

theorem setup_getInterface (hin : r.isIn = true) (hr : r.recip = some .iface) (hk : r.kind = some .getInterface)
    (hv : r.wValue = 0) (hi : r.ifaceIdx < (b.config d.configuration).ifaces.length) :
    (d.setup b r).2 = .data ([d.alternateSetting d.configuration r.ifaceIdx].take r.wLength.toNat) := by
  refine setup_data hin (show Device.stdctrlPrepare b { d with request := r } r =
    some (({ d with request := r } : Device).reply1 (d.alternateSetting d.configuration r.ifaceIdx),
      [d.alternateSetting d.configuration r.ifaceIdx]) from ?_)
  simp [Device.stdctrlPrepare, Device.prepareIface, hr, hk, hv, hi, Device.replied, Device.reply1]

theorem Told.value (h : Told b s) {v : UInt8} (hv : s.host.selected = some v) :
    (b.config s.dev.configuration).value = v := by
  have hfind := h.selected v hv
  rw [Board.getConfig, findIdx?_eq_some_iff_getElem] at hfind
  obtain ⟨hlt, hval, -⟩ := hfind
  rw [Board.config, getD_eq_getElem _ _ hlt]
  exact of_decide_eq_true hval

theorem Told.numOfIfaces (h : Told b s) {v : UInt8} (hv : s.host.selected = some v) :
    b.numOfIfaces v = (b.config s.dev.configuration).ifaces.length := by
  rw [Board.numOfIfaces, h.selected v hv]
  rfl

theorem take_pair {x y z : UInt8} {n : ℕ} : [x, y].take n = [z].take n ↔ n = 0 ∨ (n = 1 ∧ x = z) := by
  match n with
  | 0 => simp
  | 1 => simp
  | n + 2 => simp

/-- **Exactly where an answer is right.** -/
theorem answer_right_iff (h : Told b s) : (s.answer b r).Right b ↔ SetupMeets b s r := by
  have hbit : s.dev.feature &&& 0x20 = 0 ↔ s.host.wakeup = false := by
    rw [h.feature]
    cases s.host.wakeup <;> decide
  constructor
  · intro hright
    refine ⟨fun hform hlen => ?_, fun hform => ?_, fun hform => ?_⟩
    · obtain ⟨n, hn⟩ : ∃ n, r.wLength.toNat = n + 1 :=
        Nat.exists_eq_succ_of_ne_zero fun h0 => hlen (UInt16.toNat_inj.mp h0)
      have hone := hright.status hform _ s.dev.feature (setup_deviceStatus hform) (by rw [hn]; rfl)
      rw [hbit]
      by_contra hon
      rw [Bool.not_eq_false] at hon
      rw [h.feature, hon] at hone
      exact absurd (hone.mpr hon) (by decide)
    · have hrep := hright.configuration hform
      rw [show (s.answer b r).reply = _ from setup_getConfiguration hform, Reply.data.injEq] at hrep
      rcases take_pair.mp hrep with h0 | ⟨h1, hval⟩
      · exact .inl (UInt16.toNat_inj.mp h0)
      · refine .inr ⟨UInt16.toNat_inj.mp h1, fun hnone => ?_⟩
        rw [h.unselected hnone] at hval
        have hnone : (s.answer b r).host.selected = none := hnone
        rw [hval, hnone]
        rfl
    · have hrep := hright.endpoint hform
      rw [show (s.answer b r).reply = _ from setup_endpointStatus hform] at hrep
      cases hrep
  · intro hmeets
    refine ⟨fun _ hrep => setup_length hrep, fun hform bytes x hrep hx => ?_, fun hform => ?_, fun hform => ?_,
      fun v hv hform => ?_⟩
    · rw [show (s.answer b r).reply = _ from setup_deviceStatus hform, Reply.data.injEq] at hrep
      by_cases hlen : r.wLength = 0
      · have hzero : (s.answer b r).request.wLength = 0 := hlen
        subst hrep
        simp [hlen] at hx
      · obtain ⟨n, hn⟩ : ∃ n, r.wLength.toNat = n + 1 :=
          Nat.exists_eq_succ_of_ne_zero fun h0 => hlen (UInt16.toNat_inj.mp h0)
        have hoff := hbit.mp (hmeets.status hform hlen)
        rw [← hrep, hn] at hx
        cases hx
        show s.dev.feature &&& 2 ≠ 0 ↔ s.host.wakeup = true
        rw [h.feature, hoff]
        decide
    · rw [show (s.answer b r).reply = _ from setup_getConfiguration hform, Reply.data.injEq]
      refine take_pair.mpr ((hmeets.configuration hform).imp (fun h0 => ?_) fun hone => ⟨?_, ?_⟩)
      · show r.wLength.toNat = 0
        rw [h0]
        rfl
      · show r.wLength.toNat = 1
        rw [hone.1]
        rfl
      · show _ = s.host.selected.getD 0
        cases hsel : s.host.selected with
        | none =>
          rw [h.unselected hsel]
          exact hone.2 hsel
        | some v => exact h.value hsel
    · exact absurd hform hmeets.endpoint
    · obtain ⟨hin, hr, hk, hval, hi⟩ := hform
      have hv : s.host.selected = some v := hv
      rw [h.numOfIfaces hv] at hi
      exact ⟨_, h.setting (by simp [hv]) _ hi, setup_getInterface hin hr hk hval hi⟩

theorem Told.step (h : Told b s) {i : BusAct} {s' : Session} (hmeets : Ch9Meets b s i) (hstep : BusStep b s i s') :
    Told b s' := by
  cases hstep with
  | reset =>
    exact ⟨rfl, fun _ => rfl, fun v hv => absurd hv (by simp [Host.fresh]), fun hsel => absurd rfl hsel,
      fun hp => absurd hp (by simp [Device.reset])⟩
  | setup r hstd =>
    obtain ⟨hsetup, hsmall⟩ := hmeets
    unfold Session.setup Device.setup
    cases hprep : ({ s.dev with request := r } : Device).stdctrlPrepare b r with
    | none => exact ⟨h.feature, h.unselected, h.selected, h.setting, fun hp => absurd hp (by simp)⟩
    | some p =>
      obtain ⟨d', bytes⟩ := p
      have hnot : (if r.isIn = true then Reply.data (bytes.take (min bytes.length r.wLength.toNat)) else .status) ≠ .stall := by
        split_ifs <;> simp
      dsimp only
      rw [if_neg hnot]
      exact h.accept (stdctrlPrepare_prepared hprep) hsmall _ _
  | status inits hpending => exact h.process inits hpending hmeets
  | halt inStall outStall => exact ⟨h.feature, h.unselected, h.selected, h.setting, h.known⟩

/-- In a run whose steps meet the condition, all answers are right. -/
theorem ch9_answers (b : Board) (hr : ((ch9System b).restrict (Ch9Meets b)).Reach s) :
    ∀ a ∈ s.answers, a.Right b := by
  have hinv : Told b s ∧ ∀ a ∈ s.answers, a.Right b := by
    apply hr.invariant
    · intro s h0
      refine ⟨⟨?_, fun _ => h0.configuration, fun v hv => ?_, fun hsel => ?_, fun hp => ?_⟩, fun a ha => ?_⟩
      · rw [h0.feature, h0.host]
        rfl
      · simp [h0.host, Host.fresh] at hv
      · simp [h0.host, Host.fresh] at hsel
      · simp [h0.pending] at hp
      · simp [h0.answers] at ha
    · rintro s i s' - ⟨htold, hall⟩ ⟨hmeets, hstep⟩
      refine ⟨htold.step hmeets hstep, ?_⟩
      cases hstep with
      | setup r hstd =>
        intro a ha
        rcases mem_append.mp ha with hold | hnew
        · exact hall a hold
        · rw [mem_singleton.mp hnew]
          exact (answer_right_iff htold).mpr hmeets.1
      | reset | status | halt => exact hall
  exact hinv.2

/-- A device with one configuration, of value 1 and with one interface. -/
def oneIface : Board where
  configs := [⟨1, [none]⟩]
  filter := [⟨2, 0, 0, [9, 2]⟩]
  epNum := 2
  nonempty := by simp

def poweredOn : Session where
  dev := {
    address := 0
    configured := false
    configuration := 0
    feature := 0
    alternateSetting := fun _ _ => 0
    inStall := fun _ => false
    outStall := fun _ => false
    request := ⟨0, 0, 0, 0, 0⟩
    replyBuffer := (0, 0)
    dataSize := 0
    pending := false }
  host := .fresh
  answers := []

theorem poweredOn_start : BusStart poweredOn := ⟨rfl, rfl, rfl, rfl, rfl, rfl⟩

/-- The configuration is selected, interface 0 set to 3, and both are asked for. -/
theorem ch9_answers_selected :
    let s₁ := poweredOn.setup oneIface ⟨0x00, 9, 1, 0, 0⟩
    let s₂ : Session := { s₁ with
      dev := s₁.dev.statusDone oneIface ⟨true, fun _ => true⟩, host := s₁.host.completed s₁.dev.request }
    let s₃ := ((s₂.setup oneIface ⟨0x01, 11, 3, 0, 0⟩).setup oneIface ⟨0x80, 8, 0, 0, 1⟩).setup oneIface ⟨0x81, 10, 0, 0, 1⟩
    (∀ a ∈ s₃.answers, a.Right oneIface) ∧ s₃.answers.map (·.reply) = [.status, .status, .data [1], .data [3]] := by
  refine ⟨ch9_answers oneIface ?_, by rfl⟩
  have hset : ∀ (s : Session) (r : Request), ((ch9System oneIface).restrict (Ch9Meets oneIface)).Reach s →
      r.isStandard = true → ¬ r.IsDeviceStatus → (r.IsGetConfiguration → r.wLength = 1 ∧ s.host.selected ≠ none) →
      ¬ r.IsEndpointStatus oneIface → r.wValue < 256 →
      ((ch9System oneIface).restrict (Ch9Meets oneIface)).Reach (s.setup oneIface r) := by
    intro s r hr hstd hstat hcfg hep hsmall
    exact hr.step (show Ch9Meets oneIface s (.setup r) ∧ BusStep oneIface s (.setup r) _ from
      ⟨⟨⟨fun h => absurd h hstat, fun h => .inr ⟨(hcfg h).1, fun hn => absurd hn (hcfg h).2⟩, hep⟩, fun _ _ _ => hsmall⟩,
        .setup r hstd⟩)
  have h₁ := hset _ ⟨0x00, 9, 1, 0, 0⟩ (.start poweredOn_start) (by decide) (by decide) (fun h => absurd h (by decide)) (by decide)
    (by decide)
  have h₂ := h₁.step (i := .status ⟨true, fun _ => true⟩) (show Ch9Meets oneIface _ _ ∧ BusStep oneIface _ _ _ from
    ⟨fun _ _ c hc i _ => .inr ⟨by cases hc; decide, rfl, fun _ _ => rfl⟩, .status ⟨true, fun _ => true⟩ (by rfl)⟩)
  have h₃ := hset _ ⟨0x01, 11, 3, 0, 0⟩ h₂ (by decide) (by decide) (fun h => absurd h (by decide)) (by decide) (by decide)
  have h₄ := hset _ ⟨0x80, 8, 0, 0, 1⟩ h₃ (by decide) (by decide) (fun _ => ⟨rfl, by decide⟩) (by decide) (by decide)
  exact hset _ ⟨0x81, 10, 0, 0, 1⟩ h₄ (by decide) (by decide) (fun h => absurd h (by decide)) (by decide) (by decide)

/-- Remote wakeup does not show, the configuration is 1 when none was selected, and an endpoint does not
tell if it is halted. -/
theorem ch9_breaks : ∃ s, (ch9System oneIface).Reach s ∧
    s.answers.map (·.reply) = [.status, .data [0x20, 0], .data [1], .stall] ∧
    ∃ a₀ a₁ a₂ a₃, s.answers = [a₀, a₁, a₂, a₃] ∧ ¬ a₁.Right oneIface ∧ ¬ a₂.Right oneIface ∧ ¬ a₃.Right oneIface := by
  have hset : ∀ (s : Session) (r : Request), (ch9System oneIface).Reach s → r.isStandard = true →
      (ch9System oneIface).Reach (s.setup oneIface r) := fun s r hr hstd => hr.step (.setup r hstd)
  have h₁ := hset _ ⟨0x00, 3, 1, 0, 0⟩ (.start poweredOn_start) (by decide)
  have h₂ := hset _ ⟨0x80, 0, 0, 0, 2⟩ h₁ (by decide)
  have h₃ := hset _ ⟨0x80, 8, 0, 0, 1⟩ h₂ (by decide)
  have h₄ := hset _ ⟨0x82, 0, 0, 0x81, 2⟩ h₃ (by decide)
  refine ⟨_, h₄, by rfl, _, _, _, _, rfl, fun h => ?_, fun h => ?_, fun h => ?_⟩
  · exact absurd ((h.status (by decide) [0x20, 0] 0x20 (by rfl) rfl).mpr (by rfl)) (by decide)
  · exact absurd (h.configuration (by decide)) (by decide)
  · exact absurd (h.endpoint (by decide)) (by decide)

end Usbd
end Vsf
