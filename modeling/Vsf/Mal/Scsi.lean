/-
# SCSI commands over a memory abstraction layer

`vsf_mal2scsi_execute` of `vsfscsi.c` runs a command on a logical unit; a device has one transaction
until it is released. A command that comes while one is outstanding changes nothing; every other one
leaves its sense data, and a REQUEST SENSE returns them (`sense_correct`). Some commands with data
have no transaction, and a READ of no blocks has one (`data_phase_differs`).
-/
import Mathlib
import Vsf.Lib.System
import Vsf.Framework.Evtq

namespace Vsf
namespace Scsi

open Function

/-! ### The device -/

/-- The bytes of a command, from `CDB[0]` on. -/
abbrev Cdb := ℕ → UInt8

/-- `struct vsf_mal2scsi_cparam_t`, as far as a command reads it. -/
structure Cparam where
  type : UInt8
  removable : Bool
  vendor : Vector UInt8 8
  product : Vector UInt8 16
  revision : Vector UInt8 4

/-- What `stream->op` is, with the memory it has. -/
inductive StreamMem
  | bufstream (size : UInt32)
  | mbufstream
deriving DecidableEq

/-- `struct vsfscsi_lun_t`, its stream and `vsf_mal2scsi_t`: `buffer` is `mbuf.buffer_list[0]`, `addr` and
`size` the malstream's. -/
structure Lun where
  cparam : Cparam
  malReady : Bool
  blockSize : UInt64
  blockNum : UInt64
  buffer : Option (ℕ → UInt8)
  mem : StreamMem
  txReady : Bool
  addr : UInt64
  size : UInt32
  sensekey : UInt8
  asc : UInt8

/-- `struct vsfscsi_transact_t`; a unit is its index. -/
structure Transact where
  lba : UInt64
  dataSize : UInt32
  err : Err
  lun : Option ℕ

/-- `struct vsfscsi_device_t`. -/
structure Device where
  maxLun : UInt8
  lun : ℕ → Lun
  transact : Transact

/-- A transfer that `vsf_malstream_read` or `vsf_malstream_write` starts. -/
structure Start where
  write : Bool
  addr : UInt64
  size : UInt32
deriving DecidableEq

/-- How the switch of `vsf_mal2scsi_execute` is left. -/
inductive Exit
  | success (start : Option Start)
  | invalidCommand
  | invalidFieldInCommand
  | notReady
deriving DecidableEq

/-- The sense key and the additional sense code of an exit. -/
def Exit.sense : Exit → UInt8 × UInt8
  | .success _ => (0, 0)
  | .invalidCommand => (5, 0x20)
  | .invalidFieldInCommand => (5, 0x24)
  | .notReady => (2, 0)

/-- `VSFERR_NONE` or `VSFERR_FAIL`. -/
def Exit.err : Exit → Err
  | .success _ => .none
  | _ => .fail

def Exit.start : Exit → Option Start
  | .success start => start
  | _ => none

/-- `GET_BE_U16`, `GET_BE_U32` and `GET_BE_U64` of `&CDB[k]`, for `n` bytes. -/
def getBe (cdb : Cdb) (k n : ℕ) : ℕ := (List.range n).foldl (fun v i => v * 256 + (cdb (k + i)).toNat) 0

def Device.setLun (d : Device) (i : ℕ) (l : Lun) : Device := { d with lun := Function.update d.lun i l }

variable (d : Device) (i : ℕ) (cdb : Cdb)

/-! ### The commands -/

/-- `vsf_mal2scsi_prepare_transact`; `none` if there is no buffer. -/
def prepareTransact (size : UInt32) (bufstream : Bool) : Option Device :=
  match (d.lun i).buffer with
  | none => none
  | some buffer =>
    let l :=
      if bufstream then { d.lun i with
        buffer := some fun k => if k < size.toNat then 0 else buffer k
        mem := .bufstream size
        txReady := false }
      else { d.lun i with mem := .mbufstream, txReady := false }
    some { d.setLun i l with transact := { d.transact with dataSize := size, err := .none, lun := some i } }

/-- `pbuf[k] = v` for the pairs `(k, v)`. -/
def fill (vs : List (ℕ × UInt8)) (buffer : ℕ → UInt8) : ℕ → UInt8 :=
  vs.foldl (fun b kv => Function.update b kv.1 kv.2) buffer

/-- A command that answers with `size` bytes, of which `vs` are not 0. -/
def withBuffer (size : UInt32) (vs : List (ℕ × UInt8)) : Exit × Device :=
  match prepareTransact d i size true with
  | none => (.notReady, d)
  | some d => (.success none, d.setLun i { d.lun i with buffer := (d.lun i).buffer.map (fill vs) })

/-- The bytes of `v`, from `pbuf[k]` on. -/
def bytesAt {n : ℕ} (k : ℕ) (v : Vector UInt8 n) : List (ℕ × UInt8) := v.toList.zipIdx.map fun p => (k + p.2, p.1)

/-- `SET_BE_U32(&pbuf[k], v)`. -/
def setBeU32 (k : ℕ) (v : UInt64) : List (ℕ × UInt8) :=
  [(k, (v >>> 24).toUInt8), (k + 1, (v >>> 16).toUInt8), (k + 2, (v >>> 8).toUInt8), (k + 3, v.toUInt8)]

/-- `SCSI_CMDCODE_REQUEST_SENSE`. -/
def requestSense : Exit × Device :=
  let l := d.lun i
  let r := withBuffer d i 18 [(0, 0x70), (2, l.sensekey), (7, 0x0A), (12, l.asc)]
  match r.1 with
  | .success _ =>
    let dataSize := if (cdb 4).toUInt32 < 18 then (cdb 4).toUInt32 else 18
    (r.1, { r.2 with transact := { r.2.transact with dataSize } })
  | _ => r

/-- `SCSI_CMDCODE_INQUIRY`. -/
def inquiry : Exit × Device :=
  let c := (d.lun i).cparam
  if cdb 2 ≠ 0 then (.invalidFieldInCommand, d)
  else if cdb 1 &&& 1 ≠ 0 then withBuffer d i 5 []
  else
    withBuffer d i 36 ([(0, c.type)] ++ (if c.removable then [(1, 0x80)] else []) ++ [(3, 2), (4, 31)] ++
      bytesAt 8 c.vendor ++ bytesAt 16 c.product ++ bytesAt 32 c.revision)

/-- `do_mal_read` and `do_mal_write`. -/
def doMal (write : Bool) (lba : UInt64) (count : UInt32) : Exit × Device :=
  let l := d.lun i
  let lba := lba * l.blockSize
  let dataSize := (count.toUInt64 * l.blockSize).toUInt32
  let d := { d with transact := { d.transact with lba, dataSize } }
  match prepareTransact d i dataSize false with
  | none => (.notReady, d)
  | some d =>
    -- a read connects the tx end of the stream, a write the rx end
    (.success (some ⟨write, lba, dataSize⟩), d.setLun i { d.lun i with addr := lba, size := dataSize, txReady := !write })

/-- `SCSI_GROUPCODE6`. -/
def groupcode6 (cmdCode : UInt8) : Exit × Device :=
  -- MODE SELECT, TEST UNIT READY, VERIFY, FORMAT UNIT, START STOP UNIT and ALLOW MEDIUM REMOVAL
  if cmdCode ∈ ([0x15, 0x00, 0x0F, 0x04, 0x1B, 0x1E] : List UInt8) then (.success none, d)
  else if cmdCode = 0x03 then requestSense d i cdb
  else if cmdCode = 0x08 then doMal d i false (UInt64.ofNat (getBe cdb 2 2)) (cdb 4).toUInt32
  else if cmdCode = 0x0A then doMal d i true (UInt64.ofNat (getBe cdb 2 2)) (cdb 4).toUInt32
  else if cmdCode = 0x12 then inquiry d i cdb
  else if cmdCode = 0x1A then withBuffer d i 4 [(0, 3)]
  else (.invalidCommand, d)

/-- `SCSI_GROUPCODE10_1`. -/
def groupcode10_1 (cmdCode : UInt8) : Exit × Device :=
  let l := d.lun i
  -- READ FORMAT CAPACITIES and READ CAPACITY
  if cmdCode = 0x03 then withBuffer d i 12 ([(3, 8)] ++ setBeU32 4 l.blockNum ++ setBeU32 8 l.blockSize ++ [(8, 2)])
  else if cmdCode = 0x05 then withBuffer d i 8 (setBeU32 0 (l.blockNum - 1) ++ setBeU32 4 l.blockSize)
  else if cmdCode = 0x08 then doMal d i false (UInt64.ofNat (getBe cdb 2 4)) (UInt32.ofNat (getBe cdb 7 2))
  else if cmdCode = 0x0A then doMal d i true (UInt64.ofNat (getBe cdb 2 4)) (UInt32.ofNat (getBe cdb 7 2))
  else (.invalidCommand, d)

/-- `SCSI_GROUPCODE10_2`: MODE SELECT and MODE SENSE. -/
def groupcode10_2 (cmdCode : UInt8) : Exit × Device :=
  if cmdCode = 0x15 then (.success none, d)
  else if cmdCode = 0x1A then (.success none, d)
  else (.invalidCommand, d)

/-- `SCSI_GROUPCODE16`. -/
def groupcode16 (cmdCode : UInt8) : Exit × Device :=
  if cmdCode = 0x08 then doMal d i false (UInt64.ofNat (getBe cdb 2 8)) (UInt32.ofNat (getBe cdb 10 4))
  else if cmdCode = 0x0A then doMal d i true (UInt64.ofNat (getBe cdb 2 8)) (UInt32.ofNat (getBe cdb 10 4))
  else (.invalidCommand, d)

/-- `SCSI_GROUPCODE12`. -/
def groupcode12 (cmdCode : UInt8) : Exit × Device :=
  if cmdCode = 0x08 then doMal d i false (UInt64.ofNat (getBe cdb 2 4)) (UInt32.ofNat (getBe cdb 6 4))
  else if cmdCode = 0x0A then doMal d i true (UInt64.ofNat (getBe cdb 2 4)) (UInt32.ofNat (getBe cdb 6 4))
  else (.invalidCommand, d)

/-- The switch of `vsf_mal2scsi_execute`. -/
def command : Exit × Device :=
  let groupCode := cdb 0 &&& 0xE0
  let cmdCode := cdb 0 &&& 0x1F
  if groupCode = 0x00 then groupcode6 d i cdb cmdCode
  else if groupCode = 0x20 then groupcode10_1 d i cdb cmdCode
  else if groupCode = 0x40 then groupcode10_2 d cmdCode
  else if groupCode = 0x80 then groupcode16 d i cdb cmdCode
  else if groupCode = 0xA0 then groupcode12 d i cdb cmdCode
  else (.invalidCommand, d)

/-- What a call of `vsf_mal2scsi_execute` returns, leaves and starts. -/
structure Reply where
  err : Err
  dev : Device
  start : Option Start

/-- The end of `vsf_mal2scsi_execute`: the sense, and a buffer's stream connected. -/
def finish (r : Exit × Device) : Reply :=
  let l := { r.2.lun i with sensekey := r.1.sense.1, asc := r.1.sense.2 }
  let d := r.2.setLun i l
  let d :=
    match r.1, d.transact.lun with
    | .success _, some j =>
      match (d.lun j).mem with
      | .bufstream _ => d.setLun j { d.lun j with txReady := true }
      | .mbufstream => d
    | _, _ => d
  ⟨r.1.err, d, r.1.start⟩

/-- `vsf_mal2scsi_execute`; `vendor` are the handlers of `vendor_handlers`. -/
def execute (vendor : UInt8 → Option (Device → Reply)) : Reply :=
  if d.transact.lun ≠ none then ⟨.fail, d, none⟩
  else
    match vendor (cdb 0) with
    | some handler => handler d
    | none => finish i (if !(d.lun i).malReady then (.notReady, d) else command d i cdb)

/-- No vendor handlers. -/
def noVendor : UInt8 → Option (Device → Reply) := fun _ => none

/-- `vsfscsi_release_transact` and `vsfscsi_cancel_transact`. -/
def releaseTransact (d : Device) : Device := { d with transact := { d.transact with lun := none } }

/-- `vsfscsi_init`; the units' own `init` leave the sense alone. -/
def init (d : Device) : Device :=
  { d with lun := fun i => if i ≤ d.maxLun.toNat then { d.lun i with sensekey := 0, asc := 0 } else d.lun i }

/-! ### What a command does -/

/-- The commands that prepare a stream. -/
def hasStream (op : UInt8) : Bool :=
  op ∈ ([0x03, 0x08, 0x0A, 0x12, 0x1A, 0x23, 0x25, 0x28, 0x2A, 0x88, 0x8A, 0xA8, 0xAA] : List UInt8)

theorem opcode_split (op : UInt8) : op = (op &&& 0xE0) ||| (op &&& 0x1F) := by
  have hall : ∀ n : Fin 256, (UInt8.ofFin n) = (UInt8.ofFin n &&& 0xE0) ||| (UInt8.ofFin n &&& 0x1F) := by decide +kernel
  exact hall op.toFin

variable {d : Device} {i : ℕ} {cdb : Cdb} {r : Exit × Device}

@[simp] theorem setLun_lun (d : Device) (i : ℕ) (l : Lun) : (d.setLun i l).lun i = l := update_self ..

theorem setLun_lun_ne (d : Device) {i j : ℕ} (h : j ≠ i) (l : Lun) : (d.setLun i l).lun j = d.lun j :=
  update_of_ne h ..

@[simp] theorem setLun_transact (d : Device) (i : ℕ) (l : Lun) : (d.setLun i l).transact = d.transact := rfl

/-- What a command of unit `i` leaves before its sense: other units as they were, and the transaction taken
if it has a stream. -/
structure Effect (d : Device) (i : ℕ) (stream : Bool) (r : Exit × Device) : Prop where
  others : ∀ j, j ≠ i → r.2.lun j = d.lun j
  sense : (r.2.lun i).sensekey = (d.lun i).sensekey ∧ (r.2.lun i).asc = (d.lun i).asc
  taken : r.1.err = .none → stream = true → r.2.transact.lun = some i
  kept : r.1.err ≠ .none ∨ stream = false → r.2.transact.lun = d.transact.lun

theorem effect_refl {e : Exit} {stream : Bool} (h : e.err ≠ .none ∨ stream = false) : Effect d i stream (e, d) where
  others _ _ := rfl
  sense := ⟨rfl, rfl⟩
  taken herr hstream := by
    rcases h with h | h
    · exact absurd herr h
    · exact absurd (h.symm.trans hstream) (by decide)
  kept _ := rfl

theorem prepareTransact_cases (d : Device) (i : ℕ) (size : UInt32) (bufstream : Bool) :
    ((d.lun i).buffer = none ∧ prepareTransact d i size bufstream = none) ∨
      ∃ buffer l, (d.lun i).buffer = some buffer ∧ l.sensekey = (d.lun i).sensekey ∧ l.asc = (d.lun i).asc ∧
        (bufstream = true → l.buffer = some fun k => if k < size.toNat then 0 else buffer k) ∧
        prepareTransact d i size bufstream =
          some { d.setLun i l with transact := { d.transact with dataSize := size, err := .none, lun := some i } } := by
  unfold prepareTransact
  cases hbuffer : (d.lun i).buffer with
  | none => exact .inl ⟨rfl, rfl⟩
  | some buffer =>
    refine .inr ⟨buffer, _, rfl, ?_, ?_, ?_, rfl⟩
    · cases bufstream <;> rfl
    · cases bufstream <;> rfl
    · rintro rfl
      rfl

/-- **A command that answers from a buffer.** -/
theorem withBuffer_cases (d : Device) (i : ℕ) (size : UInt32) (vs : List (ℕ × UInt8)) :
    ((d.lun i).buffer = none ∧ withBuffer d i size vs = (.notReady, d)) ∨
      ∃ d', withBuffer d i size vs = (.success none, d') ∧ Effect d i true (.success none, d') ∧
        d'.transact.dataSize = size ∧
        ∃ buffer : ℕ → UInt8, (d'.lun i).buffer = some (fill vs fun k => if k < size.toNat then 0 else buffer k) := by
  unfold withBuffer
  rcases prepareTransact_cases d i size true with ⟨hnone, hprep⟩ | ⟨buffer, l, -, hkey, hasc, hbuffer, hprep⟩
  · rw [hprep]
    exact .inl ⟨hnone, rfl⟩
  · rw [hprep]
    refine .inr ⟨_, rfl, ⟨?_, ?_, ?_, ?_⟩, rfl, buffer, ?_⟩
    · intro j hj
      rw [setLun_lun_ne _ hj]
      exact setLun_lun_ne d hj l
    · simp [Device.setLun, hkey, hasc]
    · exact fun _ _ => rfl
    · rintro (h | h)
      · exact absurd rfl h
      · exact absurd h (by decide)
    · simp [Device.setLun, hbuffer rfl]

theorem withBuffer_effect (size : UInt32) (vs : List (ℕ × UInt8)) : Effect d i true (withBuffer d i size vs) := by
  rcases withBuffer_cases d i size vs with ⟨-, h⟩ | ⟨d', h, heffect, -⟩
  · rw [h]
    exact effect_refl (.inl (by decide))
  · rw [h]
    exact heffect

/-- **A transfer of blocks.** -/
theorem doMal_cases (d : Device) (i : ℕ) (write : Bool) (lba : UInt64) (count : UInt32) :
    ((d.lun i).buffer = none ∧ (doMal d i write lba count).1 = .notReady ∧ Effect d i true (doMal d i write lba count)) ∨
      ((d.lun i).buffer ≠ none ∧
        (doMal d i write lba count).1 = .success (some ⟨write, lba * (d.lun i).blockSize,
          (count.toUInt64 * (d.lun i).blockSize).toUInt32⟩) ∧
        Effect d i true (doMal d i write lba count)) := by
  unfold doMal
  simp only
  rcases prepareTransact_cases { d with transact := { d.transact with
      lba := lba * (d.lun i).blockSize, dataSize := (count.toUInt64 * (d.lun i).blockSize).toUInt32 } } i
      (count.toUInt64 * (d.lun i).blockSize).toUInt32 false with
    ⟨hnone, hprep⟩ | ⟨buffer, l, hsome, hkey, hasc, -, hprep⟩
  · rw [hprep]
    refine .inl ⟨hnone, rfl, fun j _ => rfl, ⟨rfl, rfl⟩, ?_, fun _ => rfl⟩
    intro herr
    exact absurd (show Exit.notReady.err = .none from herr) (by decide)
  · rw [hprep]
    refine .inr ⟨?_, rfl, ?_, ?_, fun _ _ => rfl, ?_⟩
    · have : (d.lun i).buffer = some buffer := hsome
      simp [this]
    · intro j hj
      rw [setLun_lun_ne _ hj]
      exact setLun_lun_ne _ hj l
    · simp [Device.setLun, hkey, hasc]
    · rintro (h | h)
      · exact absurd rfl h
      · exact absurd h (by decide)

theorem doMal_effect (write : Bool) (lba : UInt64) (count : UInt32) : Effect d i true (doMal d i write lba count) := by
  rcases doMal_cases d i write lba count with ⟨-, -, h⟩ | ⟨-, -, h⟩
  · exact h
  · exact h

theorem requestSense_effect : Effect d i true (requestSense d i cdb) := by
  unfold requestSense
  rcases withBuffer_cases d i 18 [(0, 0x70), (2, (d.lun i).sensekey), (7, 0x0A), (12, (d.lun i).asc)] with
    ⟨-, h⟩ | ⟨d', h, heffect, -⟩
  · simp only [h]
    exact effect_refl (.inl (by decide))
  · simp only [h]
    exact ⟨heffect.others, heffect.sense, heffect.taken, heffect.kept⟩

theorem inquiry_effect : Effect d i true (inquiry d i cdb) := by
  unfold inquiry
  simp only
  split_ifs
  · exact effect_refl (.inl (by decide))
  · exact withBuffer_effect _ _
  · exact withBuffer_effect _ _
  · exact withBuffer_effect _ _

theorem groupcode6_effect (cmdCode : UInt8) : Effect d i (hasStream (0x00 ||| cmdCode)) (groupcode6 d i cdb cmdCode) := by
  unfold groupcode6
  split_ifs with h0 h1 h2 h3 h4 h5
  · apply effect_refl
    simp only [List.mem_cons, List.not_mem_nil, or_false] at h0
    rcases h0 with rfl | rfl | rfl | rfl | rfl | rfl <;> exact .inr (by decide)
  · subst h1
    exact requestSense_effect
  · subst h2
    exact doMal_effect _ _ _
  · subst h3
    exact doMal_effect _ _ _
  · subst h4
    exact inquiry_effect
  · subst h5
    exact withBuffer_effect _ _
  · exact effect_refl (.inl (by decide))

theorem groupcode10_1_effect (cmdCode : UInt8) :
    Effect d i (hasStream (0x20 ||| cmdCode)) (groupcode10_1 d i cdb cmdCode) := by
  unfold groupcode10_1
  split_ifs with h0 h1 h2 h3
  · subst h0
    exact withBuffer_effect _ _
  · subst h1
    exact withBuffer_effect _ _
  · subst h2
    exact doMal_effect _ _ _
  · subst h3
    exact doMal_effect _ _ _
  · exact effect_refl (.inl (by decide))

theorem groupcode10_2_effect (cmdCode : UInt8) : Effect d i (hasStream (0x40 ||| cmdCode)) (groupcode10_2 d cmdCode) := by
  unfold groupcode10_2
  split_ifs with h0 h1
  · subst h0
    exact effect_refl (.inr (by decide))
  · subst h1
    exact effect_refl (.inr (by decide))
  · exact effect_refl (.inl (by decide))

theorem groupcode16_effect (cmdCode : UInt8) : Effect d i (hasStream (0x80 ||| cmdCode)) (groupcode16 d i cdb cmdCode) := by
  unfold groupcode16
  split_ifs with h0 h1
  · subst h0
    exact doMal_effect _ _ _
  · subst h1
    exact doMal_effect _ _ _
  · exact effect_refl (.inl (by decide))

theorem groupcode12_effect (cmdCode : UInt8) : Effect d i (hasStream (0xA0 ||| cmdCode)) (groupcode12 d i cdb cmdCode) := by
  unfold groupcode12
  split_ifs with h0 h1
  · subst h0
    exact doMal_effect _ _ _
  · subst h1
    exact doMal_effect _ _ _
  · exact effect_refl (.inl (by decide))

theorem hasStream_split {op g : UInt8} (h : op &&& 0xE0 = g) : hasStream op = hasStream (g ||| (op &&& 0x1F)) := by
  conv_lhs => rw [opcode_split op, h]

/-- **What the switch does**, for every command. -/
theorem command_effect : Effect d i (hasStream (cdb 0)) (command d i cdb) := by
  unfold command
  simp only
  split_ifs with h0 h1 h2 h3 h4
  · rw [hasStream_split h0]
    exact groupcode6_effect _
  · rw [hasStream_split h1]
    exact groupcode10_1_effect _
  · rw [hasStream_split h2]
    exact groupcode10_2_effect _
  · rw [hasStream_split h3]
    exact groupcode16_effect _
  · rw [hasStream_split h4]
    exact groupcode12_effect _
  · exact effect_refl (.inl (by decide))

theorem Exit.sense_key (e : Exit) : e.sense.1 = 0 ↔ e.err = .none := by
  cases e with
  | success start => exact iff_of_true rfl rfl
  | invalidCommand => decide
  | invalidFieldInCommand => decide
  | notReady => decide

/-- The end of a call touches only the sense, and if the stream is connected. -/
theorem finish_spec (h : ∀ j, r.2.transact.lun = some j → j = i) :
    (finish i r).err = r.1.err ∧ (finish i r).start = r.1.start ∧ (finish i r).dev.transact = r.2.transact ∧
      (∀ j, j ≠ i → (finish i r).dev.lun j = r.2.lun j) ∧
      (((finish i r).dev.lun i).sensekey, ((finish i r).dev.lun i).asc) = r.1.sense ∧
      ((finish i r).dev.lun i).buffer = (r.2.lun i).buffer := by
  obtain ⟨e, d⟩ := r
  refine ⟨rfl, rfl, ?_⟩
  unfold finish
  simp only [setLun_transact]
  cases e with
  | success start =>
    cases hlun : d.transact.lun with
    | none =>
      exact ⟨rfl, fun j hj => setLun_lun_ne d hj _, by simp, by simp⟩
    | some j =>
      obtain rfl : j = i := h j hlun
      cases hmem : (d.lun j).mem with
      | bufstream size =>
        simp only [setLun_lun, setLun_transact, true_and, and_true]
        intro k hk
        rw [setLun_lun_ne _ hk, setLun_lun_ne _ hk]
      | mbufstream =>
        simp only [setLun_lun, setLun_transact, true_and, and_true]
        intro k hk
        rw [setLun_lun_ne _ hk]
  | invalidCommand => exact ⟨rfl, fun j hj => setLun_lun_ne d hj _, by simp, by simp⟩
  | invalidFieldInCommand => exact ⟨rfl, fun j hj => setLun_lun_ne d hj _, by simp, by simp⟩
  | notReady => exact ⟨rfl, fun j hj => setLun_lun_ne d hj _, by simp, by simp⟩

/-- How a command that is not turned away leaves the switch. -/
def leave (d : Device) (i : ℕ) (cdb : Cdb) : Exit × Device :=
  if !(d.lun i).malReady then (.notReady, d) else command d i cdb

theorem leave_effect : Effect d i (hasStream (cdb 0)) (leave d i cdb) := by
  unfold leave
  split
  · exact effect_refl (.inl (by decide))
  · exact command_effect

theorem execute_busy (h : d.transact.lun ≠ none) (vendor : UInt8 → Option (Device → Reply)) :
    execute d i cdb vendor = ⟨.fail, d, none⟩ := if_pos h

theorem execute_free (h : d.transact.lun = none) : execute d i cdb noVendor = finish i (leave d i cdb) := by
  rw [execute, if_neg (by simp [h])]
  rfl

/-- A transaction that a free device has after a command is that of the unit. -/
theorem Effect.owner {stream : Bool} (he : Effect d i stream r) (h : d.transact.lun = none) (j : ℕ)
    (hj : r.2.transact.lun = some j) : j = i := by
  by_cases hs : r.1.err = .none ∧ stream = true
  · have := he.taken hs.1 hs.2
    rw [hj] at this
    exact Option.some.inj this
  · have hk := he.kept (by
      by_cases herr : r.1.err = .none
      · exact .inr (by simpa [herr] using hs)
      · exact .inl herr)
    rw [hj, h] at hk
    exact absurd hk (by simp)

/-! ### Runs -/

/-- The device, and each unit's sense of the last command not turned away. -/
structure State where
  dev : Device
  last : ℕ → UInt8 × UInt8

/-- A command, a release, and what happens by itself: memory gets ready, a transfer fails. -/
inductive Op
  | execute (i : ℕ) (cdb : Cdb)
  | release
  | ready (i : ℕ)
  | transferFailed

def step (s : State) : Op → State
  | .execute i cdb =>
    { dev := (execute s.dev i cdb noVendor).dev
      last := if s.dev.transact.lun ≠ none then s.last else Function.update s.last i (leave s.dev i cdb).1.sense }
  | .release => { s with dev := releaseTransact s.dev }
  | .ready i => { s with dev := s.dev.setLun i { s.dev.lun i with malReady := true } }
  | .transferFailed => { s with dev := { s.dev with transact := { s.dev.transact with err := .fail } } }

/-- From `vsfscsi_init` on, which leaves NO SENSE in every unit. -/
def system : System State Op where
  start s := ∃ d, d.transact.lun = none ∧
    s = ⟨init d, fun i => if i ≤ d.maxLun.toNat then (0, 0) else ((d.lun i).sensekey, (d.lun i).asc)⟩
  step s op s' := s' = step s op

/-- What is promised of `cdb` for unit `i`, with the last sense `last`; `r` is the reply. -/
structure Answers (d : Device) (last : UInt8 × UInt8) (i : ℕ) (cdb : Cdb) (r : Reply) : Prop where
  busy : d.transact.lun ≠ none → r.err ≠ .none ∧ r.dev = d ∧ r.start = none
  failed : d.transact.lun = none → r.err ≠ .none → r.dev.transact.lun = none ∧ (r.dev.lun i).sensekey ≠ 0
  succeeded : r.err = .none → (r.dev.lun i).sensekey = 0 ∧ (r.dev.lun i).asc = 0
  sense : r.err = .none → cdb 0 = 0x03 → r.dev.transact.dataSize ≤ (cdb 4).toUInt32 ∧
    ∃ buffer, (r.dev.lun i).buffer = some buffer ∧ buffer 0 = 0x70 ∧ buffer 2 = last.1 ∧ buffer 12 = last.2
  owner : d.transact.lun = none → r.dev.transact.lun = if r.err = .none ∧ hasStream (cdb 0) = true then some i else none

/-- The sense data of every unit are those of its last command. -/
def Current (s : State) : Prop := ∀ i, ((s.dev.lun i).sensekey, (s.dev.lun i).asc) = s.last i

theorem step_current {s : State} (h : Current s) (op : Op) : Current (step s op) := by
  intro j
  cases op with
  | execute i cdb =>
    by_cases hlun : s.dev.transact.lun ≠ none
    · simp only [step, execute_busy hlun, if_pos hlun]
      exact h j
    · have hfree : s.dev.transact.lun = none := by simpa using hlun
      have heffect : Effect s.dev i (hasStream (cdb 0)) (leave s.dev i cdb) := leave_effect
      obtain ⟨-, -, -, hothers, hsense, -⟩ := finish_spec (heffect.owner hfree)
      simp only [step, execute_free hfree, if_neg hlun]
      by_cases hj : j = i
      · subst hj
        rw [update_self]
        exact hsense
      · rw [update_of_ne hj, hothers j hj, heffect.others j hj]
        exact h j
  | release => exact h j
  | ready i =>
    by_cases hj : j = i
    · subst hj
      simpa [step] using h j
    · simp only [step, setLun_lun_ne _ hj]
      exact h j
  | transferFailed => exact h j

theorem reach_current {s : State} (h : system.Reach s) : Current s := by
  refine h.invariant (P := Current) ?_ ?_
  · rintro s ⟨d, -, rfl⟩ i
    by_cases hi : i ≤ d.maxLun.toNat <;> simp [init, hi]
  · rintro s op s' - hs rfl
    exact step_current hs op

theorem requestSense_data {start : Option Start} (h : (requestSense d i cdb).1 = .success start) :
    (requestSense d i cdb).2.transact.dataSize ≤ (cdb 4).toUInt32 ∧
      ∃ buffer, ((requestSense d i cdb).2.lun i).buffer = some buffer ∧ buffer 0 = 0x70 ∧
        buffer 2 = (d.lun i).sensekey ∧ buffer 12 = (d.lun i).asc := by
  unfold requestSense at h ⊢
  rcases withBuffer_cases d i 18 [(0, 0x70), (2, (d.lun i).sensekey), (7, 0x0A), (12, (d.lun i).asc)] with
    ⟨-, hr⟩ | ⟨d', hr, -, -, buffer, hbuffer⟩
  · simp only [hr] at h
    exact absurd h (by simp)
  · simp only [hr]
    refine ⟨?_, _, hbuffer, ?_, ?_, ?_⟩
    · show (if (cdb 4).toUInt32 < 18 then (cdb 4).toUInt32 else 18) ≤ (cdb 4).toUInt32
      split_ifs with hlt
      · exact UInt32.le_refl _
      · exact UInt32.not_lt.mp hlt
    · simp [fill, Function.update]
    · simp [fill, Function.update]
    · simp [fill, Function.update]

/-- **Sense and ownership, in every run**: a command during a transaction changes nothing, any other leaves
its sense for REQUEST SENSE, and those with a stream take the transaction. -/
theorem sense_correct {s : State} (h : system.Reach s) (i : ℕ) (cdb : Cdb) :
    Answers s.dev (s.last i) i cdb (execute s.dev i cdb noVendor) := by
  have hcur := reach_current h i
  by_cases hlun : s.dev.transact.lun = none
  · have heffect : Effect s.dev i (hasStream (cdb 0)) (leave s.dev i cdb) := leave_effect
    obtain ⟨herr, -, htransact, -, hsense, hbuffer⟩ := finish_spec (heffect.owner hlun)
    rw [execute_free hlun]
    have hkey : ((finish i (leave s.dev i cdb)).dev.lun i).sensekey = (leave s.dev i cdb).1.sense.1 := congrArg Prod.fst hsense
    have hasc : ((finish i (leave s.dev i cdb)).dev.lun i).asc = (leave s.dev i cdb).1.sense.2 := congrArg Prod.snd hsense
    refine ⟨fun hbusy => absurd hlun hbusy, ?_, ?_, ?_, ?_⟩
    · intro _ hfail
      rw [herr] at hfail
      rw [htransact, hkey, heffect.kept (.inl hfail)]
      exact ⟨hlun, fun h0 => hfail ((Exit.sense_key _).mp h0)⟩
    · intro hok
      rw [herr] at hok
      rw [hkey, hasc]
      cases hexit : (leave s.dev i cdb).1 with
      | success start => exact ⟨rfl, rfl⟩
      | _ => rw [hexit] at hok; exact absurd hok (by decide)
    · intro hok hop
      rw [herr] at hok
      rw [htransact, hbuffer]
      cases hexit : (leave s.dev i cdb).1 with
      | success start =>
        unfold leave at hexit ⊢
        split at hexit
        · exact absurd hexit (by simp)
        · rename_i hready
          have hcommand : command s.dev i cdb = requestSense s.dev i cdb := by
            unfold command groupcode6
            rw [hop]
            rfl
          rw [if_neg hready]
          rw [hcommand] at hexit ⊢
          obtain ⟨hsize, buffer, hb, h0, h2, h12⟩ := requestSense_data hexit
          rw [← hcur]
          exact ⟨hsize, buffer, hb, h0, h2, h12⟩
      | _ => rw [hexit] at hok; exact absurd hok (by decide)
    · intro _
      rw [herr, htransact]
      split_ifs with hs
      · exact heffect.taken hs.1 hs.2
      · rw [heffect.kept ?_, hlun]
        by_cases hok : (leave s.dev i cdb).1.err = .none
        · exact .inr (by simpa [hok] using hs)
        · exact .inl hok
  · rw [execute_busy hlun]
    have hfail : (.fail : Err) ≠ .none := by decide
    refine ⟨fun _ => ⟨hfail, rfl, rfl⟩, fun hfree => absurd hfree hlun, ?_, ?_, fun hfree => absurd hfree hlun⟩
    · exact fun hok => absurd hok hfail
    · exact fun hok => absurd hok hfail

/-- A unit with a buffer, over a memory of 8 blocks. -/
def sampleLun : Lun where
  cparam := ⟨0, false, .replicate 8 32, .replicate 16 32, .replicate 4 32⟩
  malReady := true
  blockSize := 512
  blockNum := 8
  buffer := some fun _ => 0
  mem := .mbufstream
  txReady := false
  addr := 0
  size := 0
  sensekey := 0
  asc := 0

/-- A device with one such unit. -/
def sampleDevice : Device := ⟨0, fun _ => sampleLun, ⟨0, 0, .none, none⟩⟩

/-- The bytes of a command, and zeros behind them. -/
def bytes (l : List UInt8) : Cdb := fun k => l.getD k 0

def sampleState : State := ⟨init sampleDevice, fun _ => (0, 0)⟩

theorem sampleState_reach : system.Reach sampleState := by
  refine .start ⟨sampleDevice, rfl, ?_⟩
  unfold sampleState
  congr 1
  funext i
  simp [sampleDevice, sampleLun]

/-- A command that is not known, and REQUEST SENSE. -/
theorem sense_correct_unknown : ∃ s, system.Reach s ∧ s.last 0 = (5, 0x20) ∧
    (execute s.dev 0 (bytes [3, 0, 0, 0, 18]) noVendor).err = .none ∧
    Answers s.dev (s.last 0) 0 (bytes [3, 0, 0, 0, 18]) (execute s.dev 0 (bytes [3, 0, 0, 0, 18]) noVendor) := by
  have hfail : system.Reach (step sampleState (.execute 0 (bytes [0xFF]))) := sampleState_reach.step rfl
  exact ⟨_, hfail, by decide, by decide, sense_correct hfail 0 _⟩

/-- The data of a command by the SCSI standard: blocks, or the allocation or list length. -/
def dataPhase (cdb : Cdb) : Bool :=
  match (cdb 0).toNat with
  | 0x08 | 0x0A => true
  | 0x28 | 0x2A => getBe cdb 7 2 ≠ 0
  | 0xA8 | 0xAA => getBe cdb 6 4 ≠ 0
  | 0x88 | 0x8A => getBe cdb 10 4 ≠ 0
  | 0x03 | 0x15 | 0x1A => cdb 4 ≠ 0
  | 0x12 => getBe cdb 3 2 ≠ 0
  | 0x23 | 0x55 | 0x5A => getBe cdb 7 2 ≠ 0
  | 0x25 => true
  | _ => false

/-- READ (10) of no blocks takes the transaction, MODE SENSE (10) of 8 bytes does not. -/
theorem data_phase_differs :
    (¬ ∀ s, system.Reach s → ∀ i cdb, s.dev.transact.lun = none →
      (execute s.dev i cdb noVendor).dev.transact.lun = some i → dataPhase cdb = true) ∧
    (¬ ∀ s, system.Reach s → ∀ i cdb, s.dev.transact.lun = none →
      (execute s.dev i cdb noVendor).err = .none → dataPhase cdb = true →
        (execute s.dev i cdb noVendor).dev.transact.lun = some i) := by
  constructor
  · intro h
    have hread := h sampleState sampleState_reach 0 (bytes [0x28, 0, 0, 0, 0, 0, 0, 0, 0]) rfl (by decide +kernel)
    exact absurd hread (by decide +kernel)
  · intro h
    have hsense := h sampleState sampleState_reach 0 (bytes [0x5A, 0, 0, 0, 0, 0, 0, 0, 8]) rfl (by decide +kernel)
      (by decide +kernel)
    exact absurd hsense (by decide +kernel)

end Scsi
end Vsf
