/-
# Mounting a FAT volume

`vsffat_mount` reads the boot sector and then the first sector of the root directory, in the
critical section of the storage. Its error variable is set anew each time the thread goes on, so a
sector that could not be read is reported as success, and the critical section may not be left.
Where `vsf_malfs_read` refuses a sector no event ever comes.
-/
import Mathlib
import Vsf.Lib.Heap
import Vsf.Framework.Sync
import Vsf.File.Name
import Vsf.File.Fat

namespace Vsf

open Malloc ByteMem Option

namespace Evt

/-- `VSF_MALFS_EVT_CRIT`. -/
def malfsCrit : Evt := 0x10

/-- `VSF_MALFS_EVT_IODONE`. -/
def malfsIodone : Evt := 0x11

/-- `VSF_MALFS_EVT_IOFAIL`. -/
def malfsIofail : Evt := 0x12

end Evt

namespace FatMount

/-- Where `vsffat_mount` goes on: its begin, the critical section, or a sector. -/
inductive Pc
  | begin
  | crit
  | dbr
  | root
deriving DecidableEq

/-- `struct vsfile_fatfile_t`: if `op` is `vsffat_op`, and `fat` the volume. -/
structure Root where
  name : Option ℕ
  size : ℕ
  attr : UInt8
  op : Bool
  parent : Option Addr
  fat : Bool
  firstCluster : ℕ

/-- The allocator, the device and its failing transfers, and `vsfsm_post_evt`. -/
structure Env where
  alloc : Allocator
  dev : Fat.Device
  failed : ℕ → Bool
  post : Addr → Evt → Err

end FatMount

open FatMount

/-- `struct vsffat_t` with its `malfs`, for a mount, and the memory: the sector of the transfer that goes
on, how many are over, and how often the critical section was entered and left. -/
structure FatMount where
  state : Pc
  fat : Fat
  curFatsector : ℕ
  root : Root
  crit : Sync
  sectorBuffer : Option ℕ
  volumeName : Option ℕ
  notifierSm : Option Addr
  mem : Mem
  heap : Heap
  reading : Option ℕ
  reads : ℕ
  entered : ℕ
  left : ℕ

namespace FatMount

variable (E : Env) (sm : Addr) (evt : Evt) (s : FatMount)

/-- `vsf_malfs_init`. -/
def malfsInit : Err × FatMount :=
  let s := { s with crit := s.crit.init 1 1 Evt.malfsCrit }
  let r := s.heap.malloc E.alloc (E.dev.blockSize % 2 ^ 32)
  (if r.1 = none then .notEnoughResources else .none, { s with sectorBuffer := r.1, heap := r.2 })

/-- `vsf_bufmgr_free` of what is not `NULL`. -/
def release (p : Option ℕ) (h : Heap) : Heap :=
  match p with
  | some a => h.free a
  | none => h

/-- `vsf_malfs_fini`. -/
def fini : FatMount :=
  { s with sectorBuffer := none, volumeName := none, heap := release s.volumeName (release s.sectorBuffer s.heap) }

/-- `vsf_malfs_read` of one sector into the sector buffer. -/
def read (sector : ℕ) : FatMount := { s with reading := if E.dev.accepts sector 1 then some sector else s.reading }

/-- `vsfsm_crit_leave`. -/
def critLeave : FatMount := { s with crit := (s.crit.increase E.post).2.1, left := s.left + 1 }

/-- The bytes from the sector buffer on. -/
def sector : Mem := fun i => s.mem (s.sectorBuffer.getD 0 + i)

/-- The blanks at the end of the first `n` bytes are taken away. -/
def trim (a : ℕ) : ℕ → Mem → Mem
  | 0, m => m
  | i + 1, m => if m (a + i) ≠ 0x20 then m else trim a i (Function.update m (a + i) 0)

/-- The volume's name is that of the first entry. -/
def takeName : FatMount :=
  let s := { s with volumeName := none }
  if s.fat.type = .exfat then s
  else if s.sector 11 = File.attrVolumid then
    let r := s.heap.malloc E.alloc 12
    { s with
      volumeName := r.1
      heap := r.2
      mem := match r.1 with
        | none => s.mem
        | some a => trim a 11 fun x => if a ≤ x ∧ x < a + 11 then s.sector (x - a) else if x = a + 11 then 0 else s.mem x }
  else s

/-- The root directory of a volume. -/
def rootOf (fat : Fat) (name : Option ℕ) : Root where
  name
  size := 0
  attr := File.attrDirectory
  op := true
  parent := none
  fat := true
  firstCluster := fat.rootCluster

/-- From the critical section on, up to the transfer of the boot sector. -/
def onCrit : Err × FatMount :=
  (.notReady, { ({ s with entered := s.entered + 1, notifierSm := some sm }).read E 0 with state := .dbr })

/-- From the boot sector on; of a refused one the fields set so far are left out. -/
def onDbr : Err × FatMount :=
  if evt = Evt.invalid then (.notReady, s)
  else if evt = Evt.malfsIofail then (.none, (s.critLeave E).fini)
  else
    match Fat.parseDbr s.sector E.dev.blockSize s.fat.fsinfo with
    | none => (.fail, ({ s with fat := { s.fat with type := .none } }.critLeave E).fini)
    | some fat => (.notReady, { ({ s with fat }).read E fat.rootbase with state := .root })

/-- From the first sector of the root directory on. -/
def onRoot : Err × FatMount :=
  if evt = Evt.invalid then (.notReady, s)
  else if evt = Evt.malfsIofail then (.none, s.fini)
  else
    let s := (s.takeName E).critLeave E
    (.none, { s with root := rootOf s.fat s.volumeName })

/-- Up to the critical section; no result where its list of waiters has no end. -/
def onBegin : Option (Err × FatMount) :=
  let r := malfsInit E { s with curFatsector := 0 }
  if r.1 ≠ .none then some (r.1, r.2.fini)
  else
    match r.2.crit.decrease sm with
    | none => none
    | some (.none, crit) => some ({ r.2 with crit }.onCrit E sm)
    | some (_, crit) => some (.notReady, { r.2 with crit, state := .crit })

/-- `vsffat_mount`. -/
def mount : Option (Err × FatMount) :=
  match s.state with
  | .begin => s.onBegin E sm
  | .crit => some (if evt = Evt.malfsCrit then s.onCrit E sm else (.notReady, s))
  | .dbr => some (s.onDbr E evt)
  | .root => some (s.onRoot E evt)

/-- The event at the end of a transfer; nothing is looked at of a failed one. -/
def event : Option (Evt × FatMount) :=
  s.reading.map fun sector =>
    let s := { s with reading := none, reads := s.reads + 1 }
    if E.failed (s.reads - 1) then (Evt.malfsIofail, s)
    else (Evt.malfsIodone, { s with mem := E.dev.deliver sector 1 (s.sectorBuffer.getD 0) s.mem })

/-- With an event, and those of its transfers, `vsffat_mount` returns `err`. -/
inductive Run : Evt → FatMount → Err → FatMount → Prop
  | ends {evt s err t} (h : mount E sm evt s = some (err, t)) (hret : err ≠ .notReady) : Run evt s err t
  | waits {evt s t evt' t' err u} (h : mount E sm evt s = some (.notReady, t)) (hevt : t.event E = some (evt', t'))
      (hrun : Run evt' t' err u) : Run evt s err u

/-- It is called for the first time. -/
def call : FatMount := { s with state := .begin, reading := none, reads := 0, entered := 0, left := 0 }

/-! ### What a mount should be -/

/-- What is in the sector buffer when the boot sector was read. -/
def boot (a : ℕ) : Mem := fun i => E.dev.deliver 0 1 a s.mem (a + i)

/-- The boot sector was read and parsed, and the root directory is set. -/
def Mounted (t : FatMount) : Prop :=
  ∃ a fat, (s.heap.malloc E.alloc (E.dev.blockSize % 2 ^ 32)).1 = some a ∧ E.failed 0 = false ∧
    Fat.parseDbr (boot E s a) E.dev.blockSize s.fat.fsinfo = some fat ∧ t.fat = fat ∧ t.root = rootOf fat t.volumeName

/-- A mount that is over mounted or failed, left the critical section, and after an error holds no memory. -/
structure Atomic (err : Err) (t : FatMount) : Prop where
  mounted : err = .none → Mounted E s t
  crit : t.left = t.entered
  released : err ≠ .none → ∀ b ∈ t.heap.live, b ∈ s.heap.live

/-- It is over some time, and then as it should be. -/
def Completes (evt : Evt) (t : FatMount) : Prop :=
  (∃ err u, Run E sm evt t err u) ∧ ∀ err u, Run E sm evt t err u → Atomic E s err u

/-- A mount is right. -/
def Right : Prop := Completes E sm s Evt.init s.call

/-- There is no memory; or the boot sector is read, and if it is one, so is the root's first. -/
def Meets : Prop :=
  ∀ a, (s.heap.malloc E.alloc (E.dev.blockSize % 2 ^ 32)).1 = some a →
    (E.dev.accepts 0 1 ∧ E.failed 0 = false) ∧
    ∀ fat, Fat.parseDbr (boot E s a) E.dev.blockSize s.fat.fsinfo = some fat → E.dev.accepts fat.rootbase 1 ∧ E.failed 1 = false

variable {E sm evt s} {t t' u : FatMount} {evt' : Evt} {err : Err} {a : ℕ} {b : Block} {h : Heap} {fat : Fat}

/-! ### Runs -/

theorem run_over (h : mount E sm evt t = some (err, u)) (hret : err ≠ .notReady) {err' : Err} {u' : FatMount} :
    Run E sm evt t err' u' ↔ err' = err ∧ u' = u := by
  constructor
  · intro hrun
    cases hrun with
    | ends h' _ =>
      obtain ⟨rfl, rfl⟩ := Prod.mk.inj (some.inj (h'.symm.trans h))
      exact ⟨rfl, rfl⟩
    | waits h' _ _ =>
      obtain ⟨rfl, -⟩ := Prod.mk.inj (some.inj (h'.symm.trans h))
      exact absurd rfl hret
  · rintro ⟨rfl, rfl⟩
    exact .ends h hret

theorem run_wait (h : mount E sm evt t = some (.notReady, u)) (hevt : u.event E = some (evt', t')) {err' : Err} {u' : FatMount} :
    Run E sm evt t err' u' ↔ Run E sm evt' t' err' u' := by
  constructor
  · intro hrun
    cases hrun with
    | ends h' hret =>
      obtain ⟨rfl, -⟩ := Prod.mk.inj (some.inj (h'.symm.trans h))
      exact absurd rfl hret
    | waits h' hevt' hrun =>
      obtain ⟨-, rfl⟩ := Prod.mk.inj (some.inj (h'.symm.trans h))
      obtain ⟨rfl, rfl⟩ := Prod.mk.inj (some.inj (hevt'.symm.trans hevt))
      exact hrun
  · exact .waits h hevt

theorem completes_over (h : mount E sm evt t = some (err, u)) (hret : err ≠ .notReady) :
    Completes E sm s evt t ↔ Atomic E s err u := by
  constructor
  · rintro ⟨-, hall⟩
    exact hall err u (.ends h hret)
  · intro ha
    refine ⟨⟨err, u, .ends h hret⟩, fun err' u' hrun => ?_⟩
    obtain ⟨rfl, rfl⟩ := (run_over h hret).mp hrun
    exact ha

/-- A call that waits for a transfer is followed by the one with its event. -/
theorem completes_wait (h : mount E sm evt t = some (.notReady, u)) (hevt : u.event E = some (evt', t')) :
    Completes E sm s evt t ↔ Completes E sm s evt' t' := by
  unfold Completes
  simp only [run_wait h hevt]

theorem completes_stuck (h : mount E sm evt t = some (.notReady, u)) (hevt : u.event E = none) : ¬Completes E sm s evt t := by
  rintro ⟨⟨err, u', hrun⟩, -⟩
  cases hrun with
  | ends h' hret =>
    obtain ⟨rfl, -⟩ := Prod.mk.inj (some.inj (h'.symm.trans h))
    exact hret rfl
  | waits h' hevt' _ =>
    obtain ⟨-, rfl⟩ := Prod.mk.inj (some.inj (h'.symm.trans h))
    rw [hevt] at hevt'
    cases hevt'

/-! ### Memory -/

theorem mem_of_mem_free (hb : b ∈ (h.free a).live) : b ∈ h.live ∧ b.addr ≠ a := by
  by_cases hat : h.At a
  · exact (Heap.mem_free hat).mp hb
  · have hstray : h.free a = { h with strays := h.strays + 1 } := if_neg hat
    rw [hstray] at hb
    exact ⟨hb, fun heq => hat ⟨b, hb, heq⟩⟩

theorem mem_of_mem_release {p : Option ℕ} (hb : b ∈ (release p h).live) : b ∈ h.live ∧ p ≠ some b.addr := by
  cases p with
  | none => exact ⟨hb, nofun⟩
  | some a =>
    obtain ⟨hlive, hne⟩ := mem_of_mem_free hb
    exact ⟨hlive, fun heq => hne (some.inj heq).symm⟩

/-- **`vsf_malfs_fini`** gives the sector buffer back. -/
theorem mem_fini (hb : b ∈ s.fini.heap.live) : b ∈ s.heap.live ∧ s.sectorBuffer ≠ some b.addr :=
  mem_of_mem_release (mem_of_mem_release hb).1

/-! ### A mount step by step -/

/-- The sector buffer is there, and the boot sector is asked for. -/
def started (E : Env) (sm : Addr) (s : FatMount) : FatMount :=
  let r := s.heap.malloc E.alloc (E.dev.blockSize % 2 ^ 32)
  { s with
    state := .dbr
    curFatsector := 0
    crit := { s.crit.init 1 1 Evt.malfsCrit with curValue := 1 - 1 }
    sectorBuffer := r.1
    notifierSm := some sm
    heap := r.2
    reading := if E.dev.accepts 0 1 then some 0 else none
    reads := 0
    entered := 1
    left := 0 }

theorem mount_none (hm : (s.heap.malloc E.alloc (E.dev.blockSize % 2 ^ 32)).1 = none) :
    mount E sm Evt.init s.call = some (.notEnoughResources, (malfsInit E { s.call with curFatsector := 0 }).2.fini) := by
  have hinit : malfsInit E { s.call with curFatsector := 0 } = (.notEnoughResources, (malfsInit E { s.call with curFatsector := 0 }).2) :=
    Prod.ext (if_pos hm) rfl
  change s.call.onBegin E sm = _
  unfold onBegin
  rw [hinit]
  rfl

theorem mount_some (hm : (s.heap.malloc E.alloc (E.dev.blockSize % 2 ^ 32)).1 = some a) :
    mount E sm Evt.init s.call = some (.notReady, started E sm s) := by
  have hinit : malfsInit E { s.call with curFatsector := 0 } = (.none, (malfsInit E { s.call with curFatsector := 0 }).2) :=
    Prod.ext (if_neg fun hnone => some_ne_none a (hm.symm.trans hnone)) rfl
  have hcrit : (malfsInit E { s.call with curFatsector := 0 }).2.crit.decrease sm = some (.none, (started E sm s).crit) :=
    if_pos (by decide : (1 : UInt32) > 0)
  change s.call.onBegin E sm = _
  unfold onBegin
  rw [hinit]
  rw [if_neg (fun hne => hne rfl), hcrit]
  rfl

theorem live_none (hm : (s.heap.malloc E.alloc (E.dev.blockSize % 2 ^ 32)).1 = none)
    (hb : b ∈ (malfsInit E { s.call with curFatsector := 0 }).2.fini.heap.live) : b ∈ s.heap.live := by
  have hlive : b ∈ (s.heap.malloc E.alloc (E.dev.blockSize % 2 ^ 32)).2.live := (mem_fini hb).1
  rcases Heap.malloc_cases E.alloc (E.dev.blockSize % 2 ^ 32) s.heap with ⟨a, hsome, -⟩ | ⟨-, hw⟩
  · rw [hm] at hsome
    cases hsome
  · rw [hw] at hlive
    exact hlive

theorem live_started (hm : (s.heap.malloc E.alloc (E.dev.blockSize % 2 ^ 32)).1 = some a) (hb : b ∈ t.fini.heap.live)
    (hheap : t.heap = (s.heap.malloc E.alloc (E.dev.blockSize % 2 ^ 32)).2)
    (hbuf : t.sectorBuffer = (s.heap.malloc E.alloc (E.dev.blockSize % 2 ^ 32)).1) : b ∈ s.heap.live := by
  obtain ⟨hlive, hne⟩ := mem_fini hb
  have hbuf' : t.sectorBuffer = some a := hbuf.trans hm
  rcases Heap.malloc_cases E.alloc (E.dev.blockSize % 2 ^ 32) s.heap with ⟨a', hsome, -, -, hw⟩ | ⟨hnone, -⟩
  · obtain rfl := some.inj (hm.symm.trans hsome)
    have hheap' : t.heap = { s.heap with live := ⟨a, E.dev.blockSize % 2 ^ 32⟩ :: s.heap.live, calls := s.heap.calls + 1 } := hheap.trans hw
    rw [hheap'] at hlive
    rcases List.mem_cons.mp hlive with rfl | hold
    · exact absurd hbuf' hne
    · exact hold
  · rw [hm] at hnone
    cases hnone

/-- The boot sector was read. -/
def bootRead (E : Env) (sm : Addr) (s : FatMount) : FatMount :=
  let t := started E sm s
  { t with reading := none, reads := 1, mem := E.dev.deliver 0 1 (t.sectorBuffer.getD 0) s.mem }

theorem sector_bootRead (hm : (s.heap.malloc E.alloc (E.dev.blockSize % 2 ^ 32)).1 = some a) : (bootRead E sm s).sector = boot E s a := by
  have hbuf : (started E sm s).sectorBuffer = some a := hm
  unfold sector bootRead boot
  dsimp only
  rw [hbuf]
  rfl

/-- The boot sector was parsed, and the root's first sector is asked for. -/
def parsed (E : Env) (sm : Addr) (s : FatMount) (fat : Fat) : FatMount :=
  { bootRead E sm s with
    state := .root
    fat
    reading := if E.dev.accepts fat.rootbase 1 then some fat.rootbase else none }

theorem event_none (h : t.reading = none) : t.event E = none := by
  rw [event, h, map_none]

theorem event_failed {sector : ℕ} (h : t.reading = some sector) (hf : E.failed t.reads = true) :
    t.event E = some (Evt.malfsIofail, { t with reading := none, reads := t.reads + 1 }) := by
  rw [event, h, map_some]
  exact congrArg some (if_pos hf)

theorem event_done {sector : ℕ} (h : t.reading = some sector) (hf : E.failed t.reads = false) :
    t.event E = some (Evt.malfsIodone,
      { t with reading := none, reads := t.reads + 1, mem := E.dev.deliver sector 1 (t.sectorBuffer.getD 0) t.mem }) := by
  rw [event, h, map_some]
  exact congrArg some (if_neg fun htrue => Bool.false_ne_true (hf.symm.trans htrue))

theorem takeName_keeps : (s.takeName E).fat = s.fat ∧ (s.takeName E).left = s.left ∧ (s.takeName E).entered = s.entered := by
  unfold takeName
  dsimp only
  split_ifs <;> exact ⟨rfl, rfl, rfl⟩

/-! ### Mounting -/

theorem onDbr_failed : t.onDbr E Evt.malfsIofail = (.none, (t.critLeave E).fini) := by
  rw [onDbr, if_neg (by decide), if_pos rfl]

theorem onDbr_done : t.onDbr E Evt.malfsIodone =
    match Fat.parseDbr t.sector E.dev.blockSize t.fat.fsinfo with
    | none => (.fail, ({ t with fat := { t.fat with type := .none } }.critLeave E).fini)
    | some fat => (.notReady, { ({ t with fat }).read E fat.rootbase with state := .root }) := by
  rw [onDbr, if_neg (by decide), if_neg (by decide)]

theorem onRoot_failed : t.onRoot E Evt.malfsIofail = (.none, t.fini) := by
  rw [onRoot, if_neg (by decide), if_pos rfl]

theorem onRoot_done : t.onRoot E Evt.malfsIodone =
    (.none, { (t.takeName E).critLeave E with root := rootOf (t.takeName E).fat (t.takeName E).volumeName }) := by
  rw [onRoot, if_neg (by decide), if_neg (by decide)]
  rfl

theorem mount_bootRead (hm : (s.heap.malloc E.alloc (E.dev.blockSize % 2 ^ 32)).1 = some a) :
    mount E sm Evt.malfsIodone (bootRead E sm s) =
      match Fat.parseDbr (boot E s a) E.dev.blockSize s.fat.fsinfo with
      | none => some (.fail, ({ bootRead E sm s with fat := { s.fat with type := .none } }.critLeave E).fini)
      | some fat => some (.notReady, parsed E sm s fat) := by
  have hdbr : mount E sm Evt.malfsIodone (bootRead E sm s) = some ((bootRead E sm s).onDbr E Evt.malfsIodone) := rfl
  have hfat : (bootRead E sm s).fat = s.fat := rfl
  rw [hdbr, onDbr_done, sector_bootRead hm, hfat]
  cases Fat.parseDbr (boot E s a) E.dev.blockSize s.fat.fsinfo with
  | none => rfl
  | some fat => rfl

/-- **No memory for a sector**: an error, and nothing is held. -/
theorem completes_of_none (hm : (s.heap.malloc E.alloc (E.dev.blockSize % 2 ^ 32)).1 = none) : Right E sm s :=
  (completes_over (mount_none hm) nofun).mpr ⟨nofun, rfl, fun _ _ hb => live_none hm hb⟩

/-- **The boot sector** has to be read: a failure is a success. -/
theorem mount_iff_bootRead (hm : (s.heap.malloc E.alloc (E.dev.blockSize % 2 ^ 32)).1 = some a) :
    Right E sm s ↔ (E.dev.accepts 0 1 ∧ E.failed 0 = false) ∧ Completes E sm s Evt.malfsIodone (bootRead E sm s) := by
  by_cases hacc : E.dev.accepts 0 1
  · have hreading : (started E sm s).reading = some 0 := if_pos hacc
    cases hf : E.failed 0 with
    | true =>
      have hwait := completes_wait (s := s) (mount_some hm) (event_failed hreading hf)
      have hret : mount E sm Evt.malfsIofail { started E sm s with reading := none, reads := 0 + 1 } = _ := congrArg some onDbr_failed
      refine iff_of_false (fun hr => ?_) (fun hr => Bool.false_ne_true hr.1.2.symm)
      have ha := (completes_over hret nofun).mp (hwait.mp hr)
      obtain ⟨_, _, -, hfalse, -⟩ := ha.mounted rfl
      exact Bool.false_ne_true (hfalse.symm.trans hf)
    | false =>
      have hwait := completes_wait (s := s) (mount_some hm) (event_done hreading hf)
      exact hwait.trans (iff_and_self.mpr fun _ => ⟨hacc, rfl⟩)
  · have hnone : (started E sm s).event E = none := event_none (if_neg hacc)
    exact iff_of_false (completes_stuck (mount_some hm) hnone) fun hr => hacc hr.1.1

/-- **One that is none** is an error, and all is given back. -/
theorem completes_bad (hm : (s.heap.malloc E.alloc (E.dev.blockSize % 2 ^ 32)).1 = some a)
    (hp : Fat.parseDbr (boot E s a) E.dev.blockSize s.fat.fsinfo = none) :
    Completes E sm s Evt.malfsIodone (bootRead E sm s) := by
  have hret := @mount_bootRead E sm s a hm
  rw [hp] at hret
  exact (completes_over hret nofun).mpr ⟨nofun, rfl, fun _ b hb => live_started hm hb rfl rfl⟩

/-- **The root directory** has to be read: a failure keeps the critical section. -/
theorem completes_iff_parsed (hm : (s.heap.malloc E.alloc (E.dev.blockSize % 2 ^ 32)).1 = some a) (hboot : E.failed 0 = false)
    (hp : Fat.parseDbr (boot E s a) E.dev.blockSize s.fat.fsinfo = some fat) :
    Completes E sm s Evt.malfsIodone (bootRead E sm s) ↔ E.dev.accepts fat.rootbase 1 ∧ E.failed 1 = false := by
  have hret := @mount_bootRead E sm s a hm
  rw [hp] at hret
  by_cases hacc : E.dev.accepts fat.rootbase 1
  · have hreading : (parsed E sm s fat).reading = some fat.rootbase := if_pos hacc
    cases hf : E.failed 1 with
    | true =>
      have hwait := completes_wait (s := s) hret (event_failed hreading hf)
      have hover : mount E sm Evt.malfsIofail { parsed E sm s fat with reading := none, reads := 1 + 1 } = _ := congrArg some onRoot_failed
      refine iff_of_false (fun hc => ?_) (fun hc => Bool.false_ne_true hc.2.symm)
      have ha := (completes_over hover nofun).mp (hwait.mp hc)
      exact absurd ha.crit (by decide : ¬0 = 1)
    | false =>
      have hwait := completes_wait (s := s) hret (event_done hreading hf)
      refine iff_of_true (hwait.mpr ?_) ⟨hacc, rfl⟩
      have hover : ∀ t : FatMount, t.state = .root → mount E sm Evt.malfsIodone t = some (t.onRoot E Evt.malfsIodone) := by
        intro t hstate
        rw [mount, hstate]
      refine (completes_over ((hover _ rfl).trans (congrArg some onRoot_done)) nofun).mpr ⟨fun _ => ?_, ?_, fun hne => absurd rfl hne⟩
      · obtain ⟨hfat, -, -⟩ := takeName_keeps (E := E) (s := { parsed E sm s fat with
          reading := none, reads := 1 + 1, mem := E.dev.deliver fat.rootbase 1 ((parsed E sm s fat).sectorBuffer.getD 0) (parsed E sm s fat).mem })
        exact ⟨a, fat, hm, hboot, hp, hfat, congrArg (rootOf · _) hfat⟩
      · obtain ⟨-, hleft, hentered⟩ := takeName_keeps (E := E) (s := { parsed E sm s fat with
          reading := none, reads := 1 + 1, mem := E.dev.deliver fat.rootbase 1 ((parsed E sm s fat).sectorBuffer.getD 0) (parsed E sm s fat).mem })
        exact (congrArg (· + 1) hleft).trans hentered.symm
  · have hnone : (parsed E sm s fat).event E = none := event_none (if_neg hacc)
    exact iff_of_false (completes_stuck hret hnone) fun hc => hacc hc.1

/-- **Mounting a volume** is atomic just when there is no memory, or the boot sector is read, and if it is
one, the root's first sector. -/
theorem mount_iff (E : Env) (sm : Addr) (s : FatMount) : Right E sm s ↔ Meets E s := by
  unfold Meets
  cases hm : (s.heap.malloc E.alloc (E.dev.blockSize % 2 ^ 32)).1 with
  | none => exact iff_of_true (completes_of_none hm) nofun
  | some a =>
    rw [mount_iff_bootRead hm]
    constructor
    · rintro ⟨⟨hacc, hf⟩, hc⟩ _ ⟨⟩
      exact ⟨⟨hacc, hf⟩, fun fat hp => (completes_iff_parsed hm hf hp).mp hc⟩
    · intro hmeets
      obtain ⟨⟨hacc, hf⟩, hroot⟩ := hmeets a rfl
      refine ⟨⟨hacc, hf⟩, ?_⟩
      cases hp : Fat.parseDbr (boot E s a) E.dev.blockSize s.fat.fsinfo with
      | none => exact completes_bad hm hp
      | some fat => exact (completes_iff_parsed hm hf hp).mpr (hroot fat hp)

/-- A device whose first transfer fails, and a volume that is not mounted. -/
def brokenEnv : Env where
  alloc := .placed fun _ => 0x1000
  dev := ⟨fun _ => 0, 512, 2⟩
  failed := fun _ => true
  post := fun _ _ => .none

def unmounted : FatMount where
  state := .begin
  fat := ⟨.none, 0, 0, 0, 0, 0, 0, 0, 0, 0, 0, 0, 0, 0⟩
  curFatsector := 0
  root := ⟨none, 0, 0, false, none, false, 0⟩
  crit := ⟨0, 0, 0, none, fun _ => none⟩
  sectorBuffer := none
  volumeName := none
  notifierSm := none
  mem := fun _ => 0
  heap := .empty
  reading := none
  reads := 0
  entered := 0
  left := 0

/-- **A boot sector that cannot be read** is a success. -/
theorem mount_unreadable : ¬∀ (E : Env) (sm : Addr) (s : FatMount), Right E sm s := by
  intro hall
  have hm : (unmounted.heap.malloc brokenEnv.alloc (brokenEnv.dev.blockSize % 2 ^ 32)).1 = some 0x1000 := by decide
  obtain ⟨⟨-, hf⟩, -⟩ := (mount_iff_bootRead hm).mp (hall brokenEnv 0 unmounted)
  exact Bool.false_ne_true hf.symm

end FatMount
end Vsf
