/-
# The buffers of a probe

`vsfusbh_probe_thread` allocates a buffer for each transfer; the device takes two of them, and
`vsfusbh_parse_config` allocates its arrays. A device without configurations fails while both the
URB and the device have the descriptor's buffer; the arrays of a rejected configuration are
forgotten when the next one's are allocated; and without memory for `ifs`, `num_of_ifs` still
counts.
-/
import Mathlib
import Vsf.Lib.System
import Vsf.Usb.UsbhSettings

namespace Vsf

open ByteMem UsbhConfig List Option

/-- Where the thread waits: for the descriptor's first bytes, the reset and after, the address, a while, the
descriptor, a configuration's first bytes, all of it, and its being set. -/
inductive ProbeWait
  | start
  | head
  | reset
  | address
  | addressed
  | device
  | configHead
  | config
  | configured
  | done
  | failed
  | crashed
  deriving DecidableEq

/-- `probe_urb`'s buffer and the device's memory. Buffers are numbered up to `next`, as allocated; `frees`
were freed, `contents` is in them; `alts` are the arrays of the entries of `ifs`. -/
structure UsbhProbe where
  wait : ProbeWait
  next : ℕ
  frees : List ℕ
  contents : ℕ → Mem
  transferBuffer : Option ℕ
  dynalloc : Bool
  deviceDesc : Option ℕ
  configDesc : Option ℕ
  curConfig : ℕ
  numOfIfs : ℕ
  ifs : Option ℕ
  alts : List ℕ

namespace UsbhProbe

/-- What the system does in a turn: the URB complete, memory for the next buffer, the URB submitted, the
hub, memory for the configuration's arrays, and if a driver wants an interface. -/
structure Turn where
  ok : Bool
  data : Mem
  actualLength : ℕ
  fits : Bool
  submitted : Bool
  reset : Bool
  ifsFits : Bool
  altFits : ℕ → Bool
  claiming : Bool

variable (t : Turn) (s : UsbhProbe)

/-- `vsfusbh_free_urb_buffer`. -/
def freeUrbBuffer : UsbhProbe :=
  { s with
    frees := if s.dynalloc then s.transferBuffer.toList ++ s.frees else s.frees
    transferBuffer := none
    dynalloc := false }

/-- `vsfusbh_alloc_urb_buffer`. -/
def allocUrbBuffer (fits : Bool) : UsbhProbe :=
  let s := freeUrbBuffer s
  if fits then { s with transferBuffer := some s.next, next := s.next + 1, dynalloc := true }
  else { s with transferBuffer := none, dynalloc := true }

/-- `vsfusbh_free_desc`. -/
def freeDesc : UsbhProbe :=
  { s with frees := s.configDesc.toList ++ (s.deviceDesc.toList ++ s.frees), deviceDesc := none, configDesc := none }

/-- `vsfusbh_clean_device`, which goes through `num_of_ifs` entries from `ifs` on. -/
def cleanDevice : UsbhProbe :=
  if s.ifs = none ∧ s.numOfIfs ≠ 0 then { s with wait := .crashed }
  else freeDesc { s with frees := s.ifs.toList ++ (s.alts ++ s.frees), wait := .failed }

/-- From `ret_failure` or `ret_error` on, and the handler after it. -/
def fail : UsbhProbe := cleanDevice (freeDesc (freeUrbBuffer s))

/-- The next URB is submitted, and waited for. -/
def submit (wait : ProbeWait) : UsbhProbe := if t.submitted then { s with wait := wait } else fail s

/-- The same with a buffer. -/
def getDescriptor (wait : ProbeWait) : UsbhProbe :=
  if t.fits then submit t (allocUrbBuffer s true) wait else fail (allocUrbBuffer s false)

/-- `dev->device_desc->bNumConfigurations`. -/
def numConfigurations : ℕ := (s.deviceDesc.map fun d => (s.contents d 17).toNat).getD 0

/-- The condition of the `for`, behind which is `ret_failure`. -/
def nextConfig : UsbhProbe := if s.curConfig < numConfigurations s then getDescriptor t s .configHead else fail s

/-- The buffer after the transfer. -/
def received : UsbhProbe :=
  { s with contents := (s.transferBuffer.map fun u => Function.update s.contents u t.data).getD s.contents }

/-- `dev->device_desc = probe_urb->transfer_buffer`, the other pointer as it is. -/
def takeDevice : UsbhProbe := { s with deviceDesc := s.transferBuffer }
def takeConfig : UsbhProbe := { s with configDesc := s.transferBuffer, transferBuffer := none, dynalloc := false }

/-- `probe_urb->transfer_buffer = NULL`, and the first configuration. -/
def dropBuffer : UsbhProbe := { s with transferBuffer := none, dynalloc := false, curConfig := 0 }

/-- A turn of the thread, except after the configuration is set. -/
def wake : UsbhProbe :=
  match s.wait with
  | .start => getDescriptor t s .head
  | .head =>
    if ¬t.ok then fail s
    else if t.reset then { freeUrbBuffer s with wait := .reset }
    else submit t (freeUrbBuffer s) .address
  | .reset => if t.reset then s else submit t s .address
  | .address => if ¬t.ok then fail s else { s with wait := .addressed }
  | .addressed => getDescriptor t s .device
  | .device =>
    if ¬t.ok then fail s
    else if numConfigurations (takeDevice (received t s)) < 1 then fail (takeDevice (received t s))
    else nextConfig t (dropBuffer (takeDevice (received t s)))
  | .configHead => if ¬t.ok then fail s else getDescriptor t (received t s) .config
  | .config =>
    if ¬t.ok then fail s
    else if t.actualLength ≠ load16 t.data 2 then fail (received t s)
    else submit t (takeConfig (received t s)) .configured
  | .configured => if ¬t.ok then fail s else s
  | .done | .failed | .crashed => s

/-- The block `vsfusbh_parse_config` is given. -/
def block : Block :=
  { mem := (s.configDesc.map s.contents).getD fun _ => 0, ifsFits := t.ifsFits, altFits := t.altFits }

/-- The arrays it allocated. -/
def arrays (b : Block) (scan : Scan) : UsbhProbe :=
  let k := (List.range b.num).countP fun i => (scan.table i).alt.isSome
  { s with numOfIfs := b.num, ifs := some s.next, alts := List.range' (s.next + 1) k, next := s.next + 1 + k }

/-- The configuration is not wanted, and the next one is tried. -/
def reject : UsbhProbe :=
  nextConfig t { s with frees := s.configDesc.toList ++ s.frees, configDesc := none, curConfig := s.curConfig + 1 }

/-- After `vsfusbh_parse_config`. -/
def parsed (b : Block) : ParseEnd → UsbhProbe
  | .fault => { s with wait := .crashed }
  | .notConfig => { s with wait := .done }
  | .noIfs => reject t { s with numOfIfs := b.num, ifs := none, alts := [] }
  | .noAlt scan => reject t (arrays s b scan)
  | .parsed scan => if t.claiming then { arrays s b scan with wait := .done } else reject t (arrays s b scan)

/-- An event the thread waits for, or another one. -/
inductive Step : UsbhProbe → Turn → UsbhProbe → Prop
  | wake {s : UsbhProbe} {t : Turn} (h : s.wait ≠ .configured ∨ t.ok = false) : Step s t (wake t s)
  | parse {s : UsbhProbe} {t : Turn} {epMpsIn epMpsOut : ℕ → UInt16} {fuel : ℕ} {r : ParseEnd} (hwait : s.wait = .configured)
      (hok : t.ok = true) (hr : parseConfig (block t s) epMpsIn epMpsOut fuel = some r) : Step s t (parsed t s (block t s) r)
  | other {s : UsbhProbe} {t : Turn} : Step s t s

/-- A new device: nothing is allocated. -/
structure Fresh (s : UsbhProbe) : Prop where
  wait : s.wait = .start
  next : s.next = 0
  frees : s.frees = []
  transferBuffer : s.transferBuffer = none
  deviceDesc : s.deviceDesc = none
  configDesc : s.configDesc = none
  numOfIfs : s.numOfIfs = 0
  ifs : s.ifs = none
  alts : s.alts = []

/-- A device with nothing allocated, and turns in which all goes well, with one interface. -/
def fresh : UsbhProbe where
  wait := .start
  next := 0
  frees := []
  contents := fun _ _ => 0
  transferBuffer := none
  dynalloc := false
  deviceDesc := none
  configDesc := none
  curConfig := 0
  numOfIfs := 0
  ifs := none
  alts := []

def goodTurn (numConfigurations : UInt8) : Turn where
  ok := true
  data := fun i => [9, 2, 18, 0, 1, 1, 0, 0, 0, 9, 4, 0, 0, 0, 0, 0, 0, numConfigurations].getD i 0
  actualLength := 18
  fits := true
  submitted := true
  reset := false
  ifsFits := true
  altFits := fun _ => true
  claiming := true

def turns (numConfigurations : UInt8) (n : ℕ) : UsbhProbe := (wake (goodTurn numConfigurations))^[n] fresh

theorem fresh_fresh : fresh.Fresh := ⟨rfl, rfl, rfl, rfl, rfl, rfl, rfl, rfl, rfl⟩

theorem turns_waits : (∀ n < 7, ¬(turns 1 n).ifs = none ∨ (turns 1 n).numOfIfs = 0) ∧
    (∀ n < 7, (turns 1 n).wait ≠ .configured) ∧ ∀ n < 5, (turns 0 n).wait ≠ .configured := by
  decide +kernel

def system : System UsbhProbe Turn where
  start := Fresh
  step := Step

/-- The buffers the device has. -/
def reachable : List ℕ := s.deviceDesc.toList ++ s.configDesc.toList ++ s.ifs.toList ++ s.alts

/-- Each buffer was freed once, or is in `l`. -/
def Once (l : List ℕ) : Prop := ∀ x, s.frees.count x + l.count x = if x < s.next then 1 else 0

/-- What is asked of the probe. -/
structure Right : Prop where
  crashed : s.wait ≠ .crashed
  failed : s.wait = .failed → s.Once []
  done : s.wait = .done → s.Once s.reachable

/-- `ifs` is missing. -/
def Missing : Prop := s.ifs = none ∧ s.numOfIfs ≠ 0

/-- The turn does not end the probe. -/
def GoesOn : Prop :=
  match s.wait with
  | .configHead => t.ok = true ∧ t.fits = true ∧ t.submitted = true
  | .config => t.ok = true ∧ t.actualLength = load16 t.data 2 ∧ t.submitted = true
  | .configured => t.ok = true
  | _ => True

/-- The device has a configuration, parsed inside its block and arrays and with no other's arrays there; without
memory for `ifs` the probe goes on until there is. -/
def Meets : Prop :=
  (s.Missing → s.GoesOn t) ∧ (s.wait = .device → t.ok = true → 1 ≤ (t.data 17).toNat) ∧
    (s.wait = .configured → t.ok = true → Safe (block t s) ∧ ((block t s).type 0 = dtConfig → s.ifs = none ∧
      (t.ifsFits = true ∨ (block t s).num = 0 ∨
        (s.curConfig + 1 < s.numConfigurations ∧ t.fits = true ∧ t.submitted = true))))

/-! ### What is kept -/

/-- What is allocated and not freed. -/
def held : List ℕ := s.transferBuffer.toList ++ s.reachable

structure Kept : Prop where
  once : s.Once s.held
  dynalloc : s.transferBuffer ≠ none → s.dynalloc = true
  alts : s.ifs = none → s.alts = []

/-- Nothing of the device is there yet. -/
structure Bare : Prop where
  deviceDesc : s.deviceDesc = none
  configDesc : s.configDesc = none
  ifs : s.ifs = none
  numOfIfs : s.numOfIfs = 0

/-- What is there where the thread waits. -/
def Stage : Prop :=
  match s.wait with
  | .start | .head | .reset | .address | .addressed => s.Bare
  | .device => s.Bare ∧ s.transferBuffer ≠ none
  | .configHead | .config => s.configDesc = none
  | .configured | .done => s.transferBuffer = none
  | .failed => True
  | .crashed => False

structure Inv : Prop where
  kept : s.wait ≠ .failed → s.Kept
  failed : s.wait = .failed → s.Once []
  stage : s.Stage

variable {t : Turn} {s : UsbhProbe} {wait : ProbeWait}

theorem Once.congr {s' : UsbhProbe} {l l' : List ℕ} (h : s.Once l) (hnext : s'.next = s.next)
    (hcount : ∀ x, s'.frees.count x + l'.count x = s.frees.count x + l.count x) : s'.Once l' := by
  intro x
  rw [hcount x, hnext, h x]

theorem freeUrbBuffer_kept (h : s.Kept) : (freeUrbBuffer s).Kept := by
  refine ⟨h.once.congr rfl fun x => ?_, fun hne => absurd rfl hne, h.alts⟩
  have hfrees : (freeUrbBuffer s).frees = s.transferBuffer.toList ++ s.frees := by
    unfold freeUrbBuffer
    cases hb : s.transferBuffer with
    | none => simp
    | some u => rw [if_pos (h.dynalloc (by rw [hb]; simp))]
  rw [hfrees, held, held, show (freeUrbBuffer s).reachable = s.reachable from rfl,
    show (freeUrbBuffer s).transferBuffer = none from rfl]
  simp only [count_append, toList_none, count_nil]
  omega

theorem allocUrbBuffer_kept (h : s.Kept) (fits : Bool) : (allocUrbBuffer s fits).Kept := by
  have hfree := freeUrbBuffer_kept h
  cases fits with
  | false => exact ⟨hfree.once, fun hne => absurd rfl hne, h.alts⟩
  | true =>
    refine ⟨fun x => ?_, fun _ => rfl, h.alts⟩
    have hx := hfree.once x
    rw [held, show (freeUrbBuffer s).transferBuffer = none from rfl] at hx
    show (freeUrbBuffer s).frees.count x + ([s.next] ++ (freeUrbBuffer s).reachable).count x = if x < s.next + 1 then 1 else 0
    have hnext : (freeUrbBuffer s).next = s.next := rfl
    rw [hnext, toList_none, nil_append] at hx
    rw [count_append, count_singleton]
    by_cases hxn : s.next = x
    · subst hxn
      simp only [lt_irrefl, if_false, beq_self_eq_true, if_true] at hx ⊢
      rw [if_pos (Nat.lt_succ_self _)]
      omega
    · simp only [beq_iff_eq, hxn, if_false]
      by_cases hlt : x < s.next
      · rw [if_pos hlt] at hx
        rw [if_pos (by omega)]
        omega
      · rw [if_neg hlt] at hx
        rw [if_neg (by omega)]
        omega

theorem fail_inv (h : s.Kept) (hm : ¬s.Missing) : (fail s).Inv := by
  have hfree := freeUrbBuffer_kept h
  have hclean : fail s = freeDesc { freeDesc (freeUrbBuffer s) with
      frees := s.ifs.toList ++ (s.alts ++ (freeDesc (freeUrbBuffer s)).frees), wait := .failed } := if_neg hm
  rw [hclean]
  refine ⟨fun hne => absurd rfl hne, fun _ => ?_, trivial⟩
  refine hfree.once.congr rfl fun x => ?_
  show (s.ifs.toList ++ (s.alts ++ (s.configDesc.toList ++ (s.deviceDesc.toList ++ (freeUrbBuffer s).frees)))).count x + 0 = _
  rw [held, reachable, show (freeUrbBuffer s).transferBuffer = none from rfl]
  simp only [count_append, toList_none, count_nil]
  show _ = (freeUrbBuffer s).frees.count x + (0 + (s.deviceDesc.toList.count x + s.configDesc.toList.count x +
    s.ifs.toList.count x + s.alts.count x))
  omega

theorem submit_inv (h : s.Kept) (hm : s.Missing → t.submitted = true) (hwait : wait ≠ .failed)
    (hstage : Stage { s with wait := wait }) : (submit t s wait).Inv := by
  unfold submit
  by_cases hsub : t.submitted = true
  · rw [if_pos hsub]
    exact ⟨fun _ => ⟨h.once, h.dynalloc, h.alts⟩, fun hf => absurd hf hwait, hstage⟩
  · rw [if_neg hsub]
    exact fail_inv h fun hmiss => hsub (hm hmiss)

theorem getDescriptor_inv (h : s.Kept) (hm : s.Missing → t.fits = true ∧ t.submitted = true) (hwait : wait ≠ .failed)
    (hstage : Stage { allocUrbBuffer s true with wait := wait }) : (getDescriptor t s wait).Inv := by
  unfold getDescriptor
  by_cases hfits : t.fits = true
  · rw [if_pos hfits]
    exact submit_inv (allocUrbBuffer_kept h true) (fun hmiss => (hm hmiss).2) hwait hstage
  · rw [if_neg hfits]
    exact fail_inv (allocUrbBuffer_kept h false) fun hmiss => hfits (hm hmiss).1

theorem nextConfig_inv (h : s.Kept) (hm : s.Missing → s.curConfig < s.numConfigurations ∧ t.fits = true ∧ t.submitted = true)
    (hconfig : s.configDesc = none) : (nextConfig t s).Inv := by
  unfold nextConfig
  by_cases hlt : s.curConfig < s.numConfigurations
  · rw [if_pos hlt]
    exact getDescriptor_inv h (fun hmiss => (hm hmiss).2) (by decide) hconfig
  · rw [if_neg hlt]
    exact fail_inv h fun hmiss => hlt (hm hmiss).1

theorem Bare.not_missing (h : s.Bare) : ¬s.Missing := fun hmiss => hmiss.2 h.numOfIfs

theorem received_kept (h : s.Kept) : (received t s).Kept := ⟨h.once, h.dynalloc, h.alts⟩

theorem takeDevice_kept (h : s.Kept) (hbare : s.Bare) : (dropBuffer (takeDevice (received t s))).Kept := by
  refine ⟨h.once.congr rfl fun x => ?_, fun hne => absurd rfl hne, h.alts⟩
  show s.frees.count x + ([] ++ (s.transferBuffer.toList ++ s.configDesc.toList ++ s.ifs.toList ++ s.alts)).count x =
    s.frees.count x + (s.transferBuffer.toList ++ (s.deviceDesc.toList ++ s.configDesc.toList ++ s.ifs.toList ++ s.alts)).count x
  rw [hbare.deviceDesc]
  simp [count_append]

theorem takeConfig_kept (h : s.Kept) (hconfig : s.configDesc = none) : (takeConfig (received t s)).Kept := by
  refine ⟨h.once.congr rfl fun x => ?_, fun hne => absurd rfl hne, h.alts⟩
  show s.frees.count x + ([] ++ (s.deviceDesc.toList ++ s.transferBuffer.toList ++ s.ifs.toList ++ s.alts)).count x =
    s.frees.count x + (s.transferBuffer.toList ++ (s.deviceDesc.toList ++ s.configDesc.toList ++ s.ifs.toList ++ s.alts)).count x
  rw [hconfig]
  simp only [count_append, toList_none, count_nil]
  omega

theorem wake_inv (h : s.Inv) (hmeets : s.Meets t) (hp : s.wait ≠ .configured ∨ t.ok = false) : (wake t s).Inv := by
  obtain ⟨hmissing, hdevice, -⟩ := hmeets
  have hstage := h.stage
  have hkept := h.kept
  unfold Stage at hstage
  unfold GoesOn at hmissing
  unfold wake
  cases hw : s.wait with
  | start =>
    rw [hw] at hstage hkept
    exact getDescriptor_inv (hkept (by decide)) (fun hmiss => absurd hmiss (Bare.not_missing hstage)) (by decide)
      ⟨hstage.deviceDesc, hstage.configDesc, hstage.ifs, hstage.numOfIfs⟩
  | head =>
    rw [hw] at hstage hkept
    have hbare : s.Bare := hstage
    have hk := hkept (by decide)
    dsimp only
    by_cases hok : t.ok = true
    · rw [if_neg (not_not_intro hok)]
      have hfree := freeUrbBuffer_kept hk
      have hbare' : (freeUrbBuffer s).Bare := ⟨hbare.deviceDesc, hbare.configDesc, hbare.ifs, hbare.numOfIfs⟩
      by_cases hreset : t.reset = true
      · rw [if_pos hreset]
        exact ⟨fun _ => ⟨hfree.once, hfree.dynalloc, hfree.alts⟩, (fun hf => by cases hf),
          ⟨hbare.deviceDesc, hbare.configDesc, hbare.ifs, hbare.numOfIfs⟩⟩
      · rw [if_neg hreset]
        exact submit_inv hfree (fun hmiss => absurd hmiss hbare'.not_missing) (by decide)
          ⟨hbare.deviceDesc, hbare.configDesc, hbare.ifs, hbare.numOfIfs⟩
    · rw [if_pos hok]
      exact fail_inv hk hbare.not_missing
  | reset =>
    rw [hw] at hstage hkept
    have hbare : s.Bare := hstage
    dsimp only
    by_cases hreset : t.reset = true
    · rw [if_pos hreset]
      exact h
    · rw [if_neg hreset]
      exact submit_inv (hkept (by decide)) (fun hmiss => absurd hmiss hbare.not_missing) (by decide)
        ⟨hbare.deviceDesc, hbare.configDesc, hbare.ifs, hbare.numOfIfs⟩
  | address =>
    rw [hw] at hstage hkept
    have hbare : s.Bare := hstage
    have hk := hkept (by decide)
    dsimp only
    by_cases hok : t.ok = true
    · rw [if_neg (not_not_intro hok)]
      exact ⟨fun _ => ⟨hk.once, hk.dynalloc, hk.alts⟩, (fun hf => by cases hf),
        ⟨hbare.deviceDesc, hbare.configDesc, hbare.ifs, hbare.numOfIfs⟩⟩
    · rw [if_pos hok]
      exact fail_inv hk hbare.not_missing
  | addressed =>
    rw [hw] at hstage hkept
    exact getDescriptor_inv (hkept (by decide)) (fun hmiss => absurd hmiss (Bare.not_missing hstage)) (by decide)
      ⟨⟨hstage.deviceDesc, hstage.configDesc, hstage.ifs, hstage.numOfIfs⟩, by simp [allocUrbBuffer]⟩
  | device =>
    rw [hw] at hstage hkept
    obtain ⟨hbare, hbuffer⟩ : s.Bare ∧ s.transferBuffer ≠ none := hstage
    have hk := hkept (by decide)
    dsimp only
    by_cases hok : t.ok = true
    · rw [if_neg (not_not_intro hok)]
      obtain ⟨u, hu⟩ := ne_none_iff_exists'.mp hbuffer
      have hnum : numConfigurations (takeDevice (received t s)) = (t.data 17).toNat := by
        simp [numConfigurations, takeDevice, received, hu]
      rw [if_neg (by rw [hnum]; have := hdevice hw hok; omega)]
      have hmiss' : ¬(dropBuffer (takeDevice (received t s))).Missing := fun hmiss => hmiss.2 hbare.numOfIfs
      exact nextConfig_inv (takeDevice_kept hk hbare) (fun hmiss => absurd hmiss hmiss') hbare.configDesc
    · rw [if_pos hok]
      exact fail_inv hk hbare.not_missing
  | configHead =>
    rw [hw] at hstage hkept hmissing
    have hk := hkept (by decide)
    dsimp only
    by_cases hok : t.ok = true
    · rw [if_neg (not_not_intro hok)]
      exact getDescriptor_inv (received_kept hk) (fun hmiss => (hmissing hmiss).2) (by decide) hstage
    · rw [if_pos hok]
      exact fail_inv hk fun hmiss => hok (hmissing hmiss).1
  | config =>
    rw [hw] at hstage hkept hmissing
    have hconfig : s.configDesc = none := hstage
    have hk := hkept (by decide)
    dsimp only
    by_cases hok : t.ok = true
    · rw [if_neg (not_not_intro hok)]
      by_cases hlen : t.actualLength = load16 t.data 2
      · rw [if_neg (not_not_intro hlen)]
        exact submit_inv (takeConfig_kept hk hconfig) (fun hmiss => (hmissing hmiss).2.2) (by decide) rfl
      · rw [if_pos hlen]
        exact fail_inv (received_kept hk) fun hmiss => hlen (hmissing hmiss).2.1
    · rw [if_pos hok]
      exact fail_inv hk fun hmiss => hok (hmissing hmiss).1
  | configured =>
    rw [hw] at hkept hmissing
    have hok : t.ok = false := hp.resolve_left (not_not_intro hw)
    dsimp only
    rw [if_pos (by rw [hok]; decide)]
    refine fail_inv (hkept (by decide)) fun hmiss => ?_
    have htrue : t.ok = true := hmissing hmiss
    rw [hok] at htrue
    cases htrue
  | done => exact h
  | failed => exact h
  | crashed => exact h

theorem reject_inv (h : s.Kept) (hm : s.Missing → s.curConfig + 1 < s.numConfigurations ∧ t.fits = true ∧ t.submitted = true) :
    (reject t s).Inv := by
  refine nextConfig_inv (s := { s with frees := s.configDesc.toList ++ s.frees, configDesc := none, curConfig := s.curConfig + 1 })
    ⟨h.once.congr rfl fun x => ?_, h.dynalloc, h.alts⟩ hm rfl
  show (s.configDesc.toList ++ s.frees).count x +
      (s.transferBuffer.toList ++ (s.deviceDesc.toList ++ [] ++ s.ifs.toList ++ s.alts)).count x =
    s.frees.count x + (s.transferBuffer.toList ++ (s.deviceDesc.toList ++ s.configDesc.toList ++ s.ifs.toList ++ s.alts)).count x
  simp only [count_append, count_nil]
  omega

theorem count_range' (a k x : ℕ) : (List.range' a k).count x = if a ≤ x ∧ x < a + k then 1 else 0 := by
  by_cases hx : a ≤ x ∧ x < a + k
  · rw [if_pos hx]
    exact count_eq_one_of_mem nodup_range' (mem_range'_1.mpr hx)
  · rw [if_neg hx]
    exact count_eq_zero_of_not_mem fun hmem => hx (mem_range'_1.mp hmem)

theorem arrays_kept (h : s.Kept) (hifs : s.ifs = none) (b : Block) (scan : Scan) : (arrays s b scan).Kept := by
  refine ⟨fun x => ?_, h.dynalloc, fun hnone => by cases hnone⟩
  obtain ⟨k, hk⟩ : ∃ k, k = (List.range b.num).countP fun i => (scan.table i).alt.isSome := ⟨_, rfl⟩
  have hx := h.once x
  rw [held, reachable, hifs, h.alts hifs] at hx
  have hheld : (arrays s b scan).held = s.transferBuffer.toList ++ (s.deviceDesc.toList ++ s.configDesc.toList ++ [s.next] ++
      List.range' (s.next + 1) k) := by
    rw [hk]
    rfl
  have hnext : (arrays s b scan).next = s.next + 1 + k := by
    rw [hk]
    rfl
  rw [hheld, hnext, show (arrays s b scan).frees = s.frees from rfl]
  simp only [count_append, count_singleton, count_range', toList_none, count_nil] at hx ⊢
  by_cases hlt : x < s.next
  · have hne : ¬s.next = x := by omega
    rw [if_pos hlt] at hx
    simp only [beq_iff_eq, hne, if_false]
    rw [if_neg (by omega), if_pos (by omega)]
    omega
  · rw [if_neg hlt] at hx
    by_cases heq : s.next = x
    · simp only [beq_iff_eq, heq, if_true]
      rw [if_neg (by omega), if_pos (by omega)]
      omega
    · simp only [beq_iff_eq, heq, if_false]
      by_cases hin : x < s.next + 1 + k
      · rw [if_pos (by omega), if_pos hin]
        omega
      · rw [if_neg (by omega), if_neg hin]
        omega

theorem parsed_inv (h : s.Inv) (hmeets : s.Meets t) (hwait : s.wait = .configured) (hok : t.ok = true)
    {epMpsIn epMpsOut : ℕ → UInt16} {fuel : ℕ} {r : ParseEnd} (hr : parseConfig (block t s) epMpsIn epMpsOut fuel = some r) :
    (parsed t s (block t s) r).Inv := by
  obtain ⟨hsafe, hconfig⟩ := hmeets.2.2 hwait hok
  have hk : s.Kept := h.kept (by rw [hwait]; decide)
  have hbuffer : s.transferBuffer = none := by
    have hstage := h.stage
    unfold Stage at hstage
    rw [hwait] at hstage
    exact hstage
  rcases parse_cases hsafe hr with ⟨-, rfl⟩ | ⟨hc, hno, rfl⟩ | ⟨hc, scan, hscan⟩
  · exact ⟨fun _ => ⟨hk.once, hk.dynalloc, hk.alts⟩, (fun hf => by cases hf), hbuffer⟩
  · obtain ⟨hifs, hnum⟩ := hconfig hc
    refine reject_inv (s := { s with numOfIfs := (block t s).num, ifs := none, alts := [] })
      ⟨hk.once.congr rfl fun x => ?_, hk.dynalloc, fun _ => rfl⟩ fun hmiss => ?_
    · show s.frees.count x + (s.transferBuffer.toList ++ (s.deviceDesc.toList ++ s.configDesc.toList ++ [] ++ [])).count x = _
      rw [held, reachable, hifs, hk.alts hifs]
      rfl
    · have hno' : ¬t.ifsFits = true := fun hfits => by
        rw [malloc, show (block t s).ifsFits = true from hfits, decide_eq_true hmiss.2] at hno
        cases hno
      exact (hnum.resolve_left hno').resolve_left hmiss.2
  · obtain ⟨hifs, -⟩ := hconfig hc
    have hkept := arrays_kept hk hifs (block t s) scan
    have hmiss : ¬(arrays s (block t s) scan).Missing := fun hmiss => by cases hmiss.1
    rcases hscan with rfl | rfl
    · exact reject_inv hkept fun h => absurd h hmiss
    · have hparsed : parsed t s (block t s) (.parsed scan) =
          if t.claiming then { arrays s (block t s) scan with wait := .done } else reject t (arrays s (block t s) scan) := rfl
      rw [hparsed]
      by_cases hclaim : t.claiming = true
      · rw [if_pos hclaim]
        exact ⟨fun _ => ⟨hkept.once, hkept.dynalloc, hkept.alts⟩, (fun hf => by cases hf), hbuffer⟩
      · rw [if_neg hclaim]
        exact reject_inv hkept fun h => absurd h hmiss

theorem Inv.step {s' : UsbhProbe} (h : s.Inv) (hmeets : s.Meets t) (hstep : Step s t s') : s'.Inv := by
  cases hstep with
  | wake hp => exact wake_inv h hmeets hp
  | parse hwait hok hr => exact parsed_inv h hmeets hwait hok hr
  | other => exact h

theorem Fresh.inv (h : s.Fresh) : s.Inv := by
  have hkept : s.Kept := by
    refine ⟨fun x => ?_, fun hne => absurd h.transferBuffer hne, fun _ => h.alts⟩
    rw [held, reachable, h.frees, h.next, h.transferBuffer, h.deviceDesc, h.configDesc, h.ifs, h.alts]
    rfl
  refine ⟨fun _ => hkept, fun hf => ?_, ?_⟩
  · rw [h.wait] at hf
    cases hf
  · unfold Stage
    rw [h.wait]
    exact ⟨h.deviceDesc, h.configDesc, h.ifs, h.numOfIfs⟩

theorem reach_turns : ∀ n ≤ 7, (system.restrict fun s t => s.Meets t).Reach (turns 1 n)
  | 0, _ => .start fresh_fresh
  | n + 1, hn => by
    obtain ⟨hmiss, hwait, -⟩ := turns_waits
    have hmeets : (turns 1 n).Meets (goodTurn 1) := by
      refine ⟨fun h => ?_, fun _ _ => by decide, fun h => absurd h (hwait n (by omega))⟩
      rcases hmiss n (by omega) with hifs | hnum
      · exact absurd h.1 hifs
      · exact absurd hnum h.2
    have hstep : Step (turns 1 n) (goodTurn 1) (turns 1 (n + 1)) := by
      rw [turns, turns, Function.iterate_succ_apply']
      exact .wake (.inl (hwait n (by omega)))
    exact .step (reach_turns n (by omega)) ⟨hmeets, hstep⟩

theorem reach_wake : ∀ n ≤ 5, system.Reach (turns 0 n)
  | 0, _ => .start fresh_fresh
  | n + 1, hn => by
    obtain ⟨-, -, hwait⟩ := turns_waits
    have hstep : Step (turns 0 n) (goodTurn 0) (turns 0 (n + 1)) := by
      rw [turns, turns, Function.iterate_succ_apply']
      exact .wake (.inl (hwait n (by omega)))
    exact .step (reach_wake n (by omega)) hstep

end UsbhProbe
end Vsf
