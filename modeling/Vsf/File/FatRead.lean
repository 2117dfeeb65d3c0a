/-
# Reading a file of a FAT volume

`vsffat_read` goes along the clusters to the offset, reads the part in front of the first sector
boundary, then whole sectors up to the end of the cluster, the next cluster, and last a part of a
sector. The number of bytes is not cut to the file's size; the first part is the last bytes of its
sector; the end of the cluster is not set again. `Fat.Sound` is where none of this matters.
-/
import Mathlib
import Vsf.Lib.System
import Vsf.File.Fat
import Vsf.File.Name

namespace Vsf
namespace Fat

open ByteMem Bpb List Option

/-! ### Volumes -/

/-- What is not 0 of a FAT32 volume with 2 sectors in a cluster: the boot sector, the entry of cluster 3,
and its second byte. -/
def smallBytes : List (ℕ × UInt8) :=
  [(0, 0xEB), (12, 2), (13, 2), (14, 32), (16, 1), (34, 3), (37, 4), (44, 2), (48, 1), (510, 0x55), (511, 0xAA),
    (16396, 0xFF), (16397, 0xFF), (16398, 0xFF), (16399, 0x0F), (541697, 7)]

def smallVolume : Device where
  disk a := (smallBytes.lookup a).getD 0
  blockSize := 512
  blockNum := 196608

def smallFat : Fat where
  type := .fat32
  sectorsizeBits := 9
  clustersizeBits := 1
  fatnum := 1
  reservedSize := 32
  rootentry := 0
  fsinfo := 1
  fatsize := 1024
  rootCluster := 2
  clusternum := 98290
  fatbase := 32
  database := 1056
  rootbase := 1056
  rootsize := 0

theorem smallVolume_valid : Valid smallVolume.disk where
  sec_size := by decide +kernel
  clus_size := ⟨1, by decide, by decide +kernel⟩
  reserved := by decide +kernel
  tables := by decide +kernel
  sectors := by decide +kernel
  room := by decide +kernel
  count := by decide +kernel
  root := by decide +kernel
  fat32 _ := by decide +kernel
  magic := by decide +kernel
  jmp := by decide +kernel

/-- A FAT16 volume of 16 MiB, with 512 entries in its root directory. -/
def fat16Bytes : List (ℕ × UInt8) :=
  [(0, 0xEB), (12, 2), (13, 4), (14, 1), (16, 2), (18, 2), (20, 128), (22, 32), (510, 0x55), (511, 0xAA)]

def fat16Disk : Mem := fun a => (fat16Bytes.lookup a).getD 0

theorem fat16Disk_valid : Valid fat16Disk where
  sec_size := by decide +kernel
  clus_size := ⟨2, by decide, by decide +kernel⟩
  reserved := by decide +kernel
  tables := by decide +kernel
  sectors := by decide +kernel
  room := by decide +kernel
  count := by decide +kernel
  root := by decide +kernel
  fat32 := by decide +kernel
  magic := by decide +kernel
  jmp := by decide +kernel

/-! ### The thread -/

/-- The arguments, the volume, and the sector that the lookups have in the buffer. -/
structure ReadCall where
  dev : Device
  fat : Fat
  cached : ℕ
  firstCluster : ℕ
  offset : ℕ
  size : ℕ

/-- Where the thread is: in a loop, or waiting for a sector of the table or for data. -/
inductive ReadPc
  | enter
  | locate
  | locateWait (sector : ℕ)
  | loop
  | dataWait
  | nextWait (sector : ℕ)
  | done (err : File.Err)
deriving DecidableEq

/-- The variables in `vsffat_t`; `look.entry` is `cur_cluster`, `entered` and `left` are counts. -/
structure Read where
  pc : ReadPc
  entered : ℕ
  left : ℕ
  look : Lookup
  lastSector : ℕ
  curSector : ℕ
  curOffset : ℕ
  curSize : ℕ
  curRunSize : ℕ
  curRunSector : ℕ
  remainSize : ℕ
  buff : Mem
  rsize : ℕ

/-- `memcpy`. -/
def memcpy (dst : Mem) (pos : ℕ) (src : Mem) (off n : ℕ) : Mem := fun x =>
  if pos ≤ x ∧ x < pos + n then src (off + (x - pos)) else dst x

namespace Read

variable (c : ReadCall)

def exit (s : Read) (err : File.Err) : Read := { s with pc := .done err, left := s.left + 1 }

/-- The clusters up to the offset. -/
def clustersize : ℕ := 2 ^ (c.fat.clustersizeBits + c.fat.sectorsizeBits) % 2 ^ 32

/-- A lookup goes on; `found` is what is done with the entry. -/
def looked (s : Read) (r : Lookup × LookupOut) (wait : ℕ → ReadPc) (found : Read → Read) : Read :=
  match r.2 with
  | .wait sector => { s with look := r.1, pc := wait sector }
  | .done =>
    let s := { s with look := r.1 }
    if c.fat.entryValid s.look.entry = false then s.exit .fail
    else found { s with look := { s.look with entry := s.look.entry % 2 ^ 28 } }
  | .fail => { s with look := r.1 }.exit .fail

/-- The cluster behind the current one, in the first loop. -/
def located (s : Read) : Read := { s with curOffset := (s.curOffset + clustersize c) % 2 ^ 64, pc := .locate }

/-- And in the second. -/
def nextFound (s : Read) : Read := { s with curSector := c.fat.clus2sec s.look.entry, pc := .loop }

/-- The head of the first loop. -/
def locate (s : Read) : Read :=
  if (s.curOffset + clustersize c) % 2 ^ 64 ≤ c.offset then
    s.looked c (c.fat.lookupStart s.look) .locateWait (located c)
  else
    let sector := c.fat.clus2sec s.look.entry
    { s with
      curSize := 0
      remainSize := c.size
      lastSector := (sector + 2 ^ c.fat.clustersizeBits) % 2 ^ 32
      curSector := (sector + c.offset % clustersize c / c.fat.sectorsize) % 2 ^ 32
      curOffset := c.offset - c.offset % c.fat.sectorsize
      pc := .loop }

/-- The head of the second loop, up to the data. -/
def loop (s : Read) : Read :=
  if s.remainSize = 0 then s.exit .none
  else if s.curOffset ≠ c.offset then
    { s with
      curRunSize := c.offset % c.fat.sectorsize
      curRunSector := 1
      look := { s.look with curFatsector := 0 }
      pc := .dataWait }
  else if s.remainSize < c.fat.sectorsize then
    { s with
      curRunSize := s.remainSize
      curRunSector := 1
      look := { s.look with curFatsector := 0 }
      pc := .dataWait }
  else
    let run := min ((s.lastSector + 2 ^ 32 - s.curSector) % 2 ^ 32) (s.remainSize / c.fat.sectorsize)
    { s with
      curRunSector := run
      curRunSize := run * c.fat.sectorsize % 2 ^ 32
      pc := .dataWait }

/-- The data is there. -/
def copied (s : Read) : Read :=
  if s.curOffset ≠ c.offset then
    { s with
      buff := memcpy s.buff 0 s.look.buffer (c.fat.sectorsize - s.curRunSize) s.curRunSize
      curOffset := (s.curOffset + s.curRunSize) % 2 ^ 64
      curSector := (s.curSector + s.curRunSector) % 2 ^ 32 }
  else if s.remainSize < c.fat.sectorsize then
    { s with buff := memcpy s.buff s.curSize s.look.buffer 0 s.curRunSize }
  else { s with curSector := (s.curSector + s.curRunSector) % 2 ^ 32 }

/-- The data counts. -/
def counted (s : Read) : Read :=
  { s with
    curSize := (s.curSize + s.curRunSize) % 2 ^ 32
    remainSize := (s.remainSize + 2 ^ 32 - s.curRunSize) % 2 ^ 32
    rsize := (s.rsize + s.curRunSize) % 2 ^ 32 }

/-- The end of the second loop. -/
def advance (s : Read) : Read :=
  if s.remainSize ≠ 0 ∧ s.curSector = s.lastSector then
    s.looked c (c.fat.lookupStart s.look) .nextWait (nextFound c)
  else { s with pc := .loop }

/-- The thread, where it need not wait. -/
def run (s : Read) : Read :=
  match s.pc with
  | .locate => s.locate c
  | .loop => s.loop c
  | _ => s

/-- The sectors it waits for. -/
def request (s : Read) : Option (ℕ × ℕ) :=
  match s.pc with
  | .locateWait sector => some (sector, 1)
  | .nextWait sector => some (sector, 1)
  | .dataWait => some (s.curSector, s.curRunSector)
  | _ => none

/-- Whole sectors go to the caller, all else to the sector buffer. -/
def toBuff (s : Read) : Bool :=
  match s.pc with
  | .dataWait => s.curOffset = c.offset && c.fat.sectorsize ≤ s.remainSize
  | _ => false

/-- The sectors are read; if that fails, anything is there. -/
def filled (s : Read) (sector num : ℕ) (junk : Option Mem) : Read :=
  if s.toBuff c then { s with buff := junk.getD (c.dev.deliver sector num s.curSize s.buff) }
  else { s with look := { s.look with buffer := junk.getD (c.dev.deliver sector num 0 s.look.buffer) } }

/-- The thread is entered again. -/
def resume (s : Read) (ok : Bool) : Read :=
  match s.pc with
  | .locateWait _ => s.looked c (c.fat.lookupResume s.look ok) .locateWait (located c)
  | .nextWait _ => s.looked c (c.fat.lookupResume s.look ok) .nextWait (nextFound c)
  | .dataWait => if ok = false then s.exit .fail else ((s.copied c).counted).advance c
  | _ => s

end Read

/-! ### The runs -/

/-- The critical section is entered, the thread runs, or its sectors are read. -/
inductive ReadAct where
  | enter
  | run
  | io (junk : Option Mem)

/-- What `vsf_malfs_read` does not accept is never read. -/
inductive ReadStep (c : ReadCall) : Read → ReadAct → Read → Prop
  | enter {s : Read} (hpc : s.pc = .enter) : ReadStep c s .enter { s with
      entered := s.entered + 1
      rsize := 0
      look := { s.look with entry := c.firstCluster }
      curOffset := 0
      pc := .locate }
  | run {s : Read} (hpc : s.pc = .locate ∨ s.pc = .loop) : ReadStep c s .run (s.run c)
  | io {s : Read} (sector num : ℕ) (junk : Option Mem) (hreq : s.request = some (sector, num))
      (hacc : c.dev.accepts sector num) : ReadStep c s (.io junk) ((s.filled c sector num junk).resume c junk.isNone)

/-- The buffer has the sector that it is said to have, from an earlier operation. -/
structure ReadStart (c : ReadCall) (s : Read) : Prop where
  pc : s.pc = .enter
  crit : s.entered = 0 ∧ s.left = 0
  cached : s.look.curFatsector = c.cached
  filled : c.cached ≠ 0 → Filled c.dev s.look

def readSystem (c : ReadCall) : System Read ReadAct where
  start := ReadStart c
  step := ReadStep c

/-! ### What a read is for -/

/-- The sector `q` of a file with the clusters `cs`, and its byte `j`. -/
def fileSector (m : Mem) (cs : List ℕ) (q : ℕ) : ℕ := sectorOf m (cs.getD (q / secPerClus m) 0) + q % secPerClus m

def fileByte (m : Mem) (cs : List ℕ) (j : ℕ) : UInt8 :=
  m (fileSector m cs (j / bytsPerSec m) * bytsPerSec m + j % bytsPerSec m)

/-- A mounted volume, and a file on it with the clusters `cs`. -/
structure FileOn (c : ReadCall) (size : ℕ) (cs : List ℕ) : Prop where
  valid : Valid c.dev.disk
  mounted : ∃ fsinfo, parseDbr c.dev.disk c.dev.blockSize fsinfo = some c.fat
  chain : Chain c.dev.disk cs.head? cs
  first : c.firstCluster = cs.headD 0
  size_le : size ≤ cs.length * clusterBytes c.dev.disk
  size_lt : size < 2 ^ 32
  offset_lt : c.offset < 2 ^ 64
  request_lt : c.size < 2 ^ 32

/-- A read of a file of 600 bytes in that cluster. -/
def smallRead (offset size : ℕ) : ReadCall where
  dev := smallVolume
  fat := smallFat
  cached := 0
  firstCluster := 3
  offset := offset
  size := size

theorem smallRead_file {offset size : ℕ} (ho : offset < 2 ^ 64) (hs : size < 2 ^ 32) : FileOn (smallRead offset size) 600 [3] where
  valid := smallVolume_valid
  mounted := ⟨0, show parseDbr smallVolume.disk 512 0 = some smallFat by decide +kernel⟩
  chain := {
    chain := ⟨rfl, show next smallVolume.disk 3 = none by decide +kernel⟩
    range := show ∀ c ∈ [3], 2 ≤ c ∧ c < countOfClusters smallVolume.disk + 2 by decide +kernel }
  first := rfl
  size_le := show 600 ≤ [3].length * clusterBytes smallVolume.disk by decide +kernel
  size_lt := by decide
  offset_lt := ho
  request_lt := hs

/-- What the caller gets, and that the critical section is left. -/
structure ReadCorrect (c : ReadCall) (size : ℕ) (cs : List ℕ) (s : Read) : Prop where
  read : s.pc = .done .none → s.rsize = min c.size (size - c.offset) ∧
    ∀ j < s.rsize, s.buff j = fileByte c.dev.disk cs (c.offset + j)
  released : ∀ err, s.pc = .done err → s.entered = 1 ∧ s.left = 1

/-! ### Where it is right -/

/-- The lookups of clusters, one after the other, from the buffer's sector on. -/
def Hops (fat : Fat) : ℕ → List ℕ → Prop
  | _, [] => True
  | cached, c :: cs => LookupOk fat cached c ∧ Hops fat (fat.lastSec c) cs

/-- The sector in the buffer after them. -/
def cachedAfter (fat : Fat) (cached : ℕ) (cs : List ℕ) : ℕ := cs.foldl (fun _ c => fat.lastSec c) cached

namespace ReadCall

variable (c : ReadCall)

/-- The clusters of the file where the read begins and ends. -/
def firstIx : ℕ := c.offset / clusterBytes c.dev.disk

def lastIx : ℕ := (c.offset + c.size - 1) / clusterBytes c.dev.disk

end ReadCall

/-- A read of something is inside the file, begins on a sector or inside one that it leaves, has its lookups
right, and its clusters behind the first one stand in a row, but not right behind the first. -/
structure Sound (c : ReadCall) (size : ℕ) (cs : List ℕ) : Prop where
  agrees : Agrees c.dev c.fat
  inside : c.offset + c.size ≤ size
  aligned : c.offset % bytsPerSec c.dev.disk = 0 ∨
    c.offset % bytsPerSec c.dev.disk = bytsPerSec c.dev.disk / 2 ∧ bytsPerSec c.dev.disk / 2 ≤ c.size
  hops : Hops c.fat c.cached (cs.take c.firstIx)
  hop : c.firstIx < c.lastIx → LookupOk c.fat
    (if c.offset % bytsPerSec c.dev.disk = 0 then cachedAfter c.fat c.cached (cs.take c.firstIx) else 0) (cs.getD c.firstIx 0)
  apart : c.firstIx < c.lastIx → cs.getD (c.firstIx + 1) 0 ≠ cs.getD c.firstIx 0 + 1
  straight : ∀ i, c.firstIx < i → i < c.lastIx → cs.getD (i + 1) 0 = cs.getD i 0 + 1
  low : ∀ i, c.firstIx ≤ i → i ≤ c.lastIx →
    (sectorOf c.dev.disk (cs.getD i 0) + secPerClus c.dev.disk) * bytsPerSec c.dev.disk ≤ 2 ^ 32

/-! ### Sectors of a file -/

variable {c : ReadCall} {size : ℕ} {cs : List ℕ}

theorem fileSector_in (cs : List ℕ) {m : Mem} {i q : ℕ} (hlo : i * secPerClus m ≤ q) (hhi : q < (i + 1) * secPerClus m) :
    fileSector m cs q = sectorOf m (cs.getD i 0) + (q - i * secPerClus m) := by
  have hq : q / secPerClus m = i := Nat.div_eq_of_lt_le hlo hhi
  have hmod := Nat.div_add_mod q (secPerClus m)
  rw [hq, mul_comm] at hmod
  unfold fileSector
  rw [hq]
  omega

theorem deliver_byte (h : Placed c.dev c.fat) {sector num dst x : ℕ} {m : Mem}
    (hlow : (sector + 1) * bytsPerSec c.dev.disk ≤ 2 ^ 32) (hnum : num * bytsPerSec c.dev.disk < 2 ^ 32) (hlo : dst ≤ x)
    (hhi : x < dst + num * bytsPerSec c.dev.disk) :
    c.dev.deliver sector num dst m x = c.dev.disk (sector * bytsPerSec c.dev.disk + (x - dst)) := by
  have hmod : num * (c.dev.blockSize % 2 ^ 32) % 2 ^ 32 = num * bytsPerSec c.dev.disk := by
    rw [h.block_mod, h.sectorsize, Nat.mod_eq_of_lt hnum]
  rw [Device.deliver, hmod, if_pos ⟨hlo, hhi⟩, h.byte (by rw [h.sectorsize]; exact hlow), h.sectorsize]

theorem deliver_sector (h : Placed c.dev c.fat) {sector : ℕ} (hlow : (sector + 1) * bytsPerSec c.dev.disk ≤ 2 ^ 32)
    (hsec : bytsPerSec c.dev.disk < 2 ^ 32) (m : Mem) :
    ∀ i < bytsPerSec c.dev.disk, c.dev.deliver sector 1 0 m i = c.dev.disk (sector * bytsPerSec c.dev.disk + i) := by
  intro i hi
  rw [deliver_byte h hlow (by omega) (Nat.zero_le i) (by omega), Nat.sub_zero]

variable {sector num i : ℕ} {m : Mem} {r : Lookup × LookupOut}

theorem deliver_other {dst x : ℕ} (hx : x < dst) : c.dev.deliver sector num dst m x = m x :=
  if_neg fun h => absurd h.1 (by omega)

theorem fileByte_at {q t j : ℕ} (hj : j = q * bytsPerSec m + t) (ht : t < bytsPerSec m) :
    fileByte m cs j = m (fileSector m cs q * bytsPerSec m + t) := by
  have hpos : 0 < bytsPerSec m := by omega
  unfold fileByte
  rw [hj, mul_comm q, Nat.mul_add_div hpos, Nat.div_eq_of_lt ht, add_zero, Nat.mul_add_mod, Nat.mod_eq_of_lt ht]

namespace FileOn

variable (hf : FileOn c size cs)

include hf

theorem sec_pos : 512 ≤ bytsPerSec c.dev.disk ∧ bytsPerSec c.dev.disk ≤ 4096 := by
  have := hf.valid.sec_size
  simp only [mem_cons, not_mem_nil, or_false] at this
  omega

theorem sec_even : bytsPerSec c.dev.disk = 2 * (bytsPerSec c.dev.disk / 2) := by
  have := hf.valid.sec_size
  simp only [mem_cons, not_mem_nil, or_false] at this
  omega

theorem clusterBytes_pos : 0 < clusterBytes c.dev.disk := by
  obtain ⟨k, -, hk⟩ := hf.valid.clus_size
  have hsec := hf.sec_pos
  rw [clusterBytes, hk]
  exact mul_pos (Nat.two_pow_pos k) (by omega)

theorem two_le (hi : i < cs.length) : 2 ≤ cs.getD i 0 := by
  rw [getD_eq_getElem _ _ hi]
  exact (hf.chain.range _ (getElem_mem hi)).1

theorem end_le : c.offset + c.size ≤ (c.lastIx + 1) * clusterBytes c.dev.disk := by
  have := Nat.lt_div_mul_add (a := c.offset + c.size - 1) hf.clusterBytes_pos
  have hexp : (c.lastIx + 1) * clusterBytes c.dev.disk =
      (c.offset + c.size - 1) / clusterBytes c.dev.disk * clusterBytes c.dev.disk + clusterBytes c.dev.disk := by
    rw [ReadCall.lastIx, add_mul, one_mul]
  omega

end FileOn

theorem ReadCall.firstIx_le (hsize : c.size ≠ 0) : c.firstIx ≤ c.lastIx := Nat.div_le_div_right (by omega)

namespace Sound

variable (hs : Sound c size cs) (hf : FileOn c size cs)

include hs hf

theorem placed : Placed c.dev c.fat := by
  obtain ⟨fsinfo, hmount⟩ := hf.mounted
  exact placed_of_mount hf.valid hmount hs.agrees

theorem clustersize_eq : Read.clustersize c = clusterBytes c.dev.disk := by
  have hp := hs.placed hf
  have hclus := hp.clus_le
  have hsec := hf.sec_pos
  have hle : secPerClus c.dev.disk * bytsPerSec c.dev.disk ≤ 128 * 4096 := Nat.mul_le_mul hclus.2 hsec.2
  have hsz := hp.sectorsize
  rw [Fat.sectorsize] at hsz
  rw [Read.clustersize, pow_add, hp.clustersize, hsz, clusterBytes]
  exact Nat.mod_eq_of_lt (by omega)

theorem lastIx_lt (hsize : c.size ≠ 0) : c.lastIx < cs.length := by
  have hpos := hf.clusterBytes_pos
  have := hs.inside
  have := hf.size_le
  exact (Nat.div_lt_iff_lt_mul hpos).mpr (by omega)

theorem sector_low {q : ℕ} (hlo : c.firstIx * secPerClus c.dev.disk ≤ q) (hhi : q < (c.lastIx + 1) * secPerClus c.dev.disk) :
    (fileSector c.dev.disk cs q + 1) * bytsPerSec c.dev.disk ≤ 2 ^ 32 := by
  have hpos := (hs.placed hf).clus_le.1
  have hi1 : c.firstIx ≤ q / secPerClus c.dev.disk := (Nat.le_div_iff_mul_le hpos).mpr hlo
  have hi2 : q / secPerClus c.dev.disk < c.lastIx + 1 := (Nat.div_lt_iff_lt_mul hpos).mpr hhi
  refine le_trans (Nat.mul_le_mul_right _ ?_) (hs.low _ hi1 (Nat.lt_succ_iff.mp hi2))
  have := Nat.mod_lt q hpos
  unfold fileSector
  omega

end Sound

/-! ### What every step keeps -/

/-- The counts, and the bytes so far. -/
structure Here (c : ReadCall) (cs : List ℕ) (s : Read) : Prop where
  sum : s.curSize + s.remainSize = c.size
  rsize : s.rsize = s.curSize
  bytes : ∀ j < s.curSize, s.buff j = fileByte c.dev.disk cs (c.offset + j)
  entered : s.entered = 1
  left : s.left = 0

/-- The first cluster of the read. -/
structure InFirst (c : ReadCall) (cs : List ℕ) (s : Read) : Prop where
  clus : s.look.entry = cs.getD c.firstIx 0
  last : s.lastSector = sectorOf c.dev.disk (cs.getD c.firstIx 0) + secPerClus c.dev.disk

/-- The lookup of the cluster behind the first. -/
structure NextOk (c : ReadCall) (cs : List ℕ) (s : Read) : Prop where
  ok : c.firstIx < c.lastIx → LookupOk c.fat s.look.curFatsector (cs.getD c.firstIx 0)
  filled : s.look.curFatsector ≠ 0 → Filled c.dev s.look

/-- The sector of the file where the read is. -/
def sectorIx (c : ReadCall) (s : Read) : ℕ := (c.offset + s.curSize) / bytsPerSec c.dev.disk

/-- On a sector boundary. -/
structure AtSector (c : ReadCall) (s : Read) : Prop where
  off : s.curOffset = c.offset
  dvd : (c.offset + s.curSize) % bytsPerSec c.dev.disk = 0

/-- At the head of the second loop: before the first boundary, in the first cluster, behind it, or at the
end. -/
inductive Place (c : ReadCall) (cs : List ℕ) (s : Read) : Prop
  | head (hsize : s.curSize = 0) (hne : c.offset % bytsPerSec c.dev.disk ≠ 0)
      (hoff : s.curOffset = c.offset - c.offset % bytsPerSec c.dev.disk) (hin : InFirst c cs s)
      (hcur : s.curSector = fileSector c.dev.disk cs (sectorIx c s))
  | first (hat : AtSector c s) (hlt : sectorIx c s < (c.firstIx + 1) * secPerClus c.dev.disk) (hin : InFirst c cs s)
      (hcur : s.curSector = fileSector c.dev.disk cs (sectorIx c s)) (hnext : NextOk c cs s)
  | second (hat : AtSector c s)
      (hcur : ∀ q, sectorIx c s ≤ q → q < (c.lastIx + 1) * secPerClus c.dev.disk →
        fileSector c.dev.disk cs q = s.curSector + (q - sectorIx c s))
      (hroom : s.remainSize / bytsPerSec c.dev.disk ≤ (s.lastSector + 2 ^ 32 - s.curSector) % 2 ^ 32)
      (hstop : s.remainSize % bytsPerSec c.dev.disk ≠ 0 →
        s.curSector + s.remainSize / bytsPerSec c.dev.disk ≠ s.lastSector)
  | finished (hremain : s.remainSize = 0)

/-- At the head of the second loop. -/
structure Ready (c : ReadCall) (cs : List ℕ) (s : Read) : Prop where
  pc : s.pc = .loop
  here : Here c cs s
  place : Place c cs s

/-- The way to the first cluster: the cluster with index `i`. -/
structure Along (c : ReadCall) (cs : List ℕ) (s : Read) (i cached : ℕ) : Prop where
  hops : Hops c.fat cached ((cs.take c.firstIx).drop i)
  after : cachedAfter c.fat cached ((cs.take c.firstIx).drop i) = cachedAfter c.fat c.cached (cs.take c.firstIx)
  rsize : s.rsize = 0
  entered : s.entered = 1
  left : s.left = 0

/-- The end of the first cluster. -/
structure AtEnd (c : ReadCall) (cs : List ℕ) (s : Read) : Prop where
  here : Here c cs s
  more : s.remainSize ≠ 0
  at_sector : AtSector c s
  ix : sectorIx c s = (c.firstIx + 1) * secPerClus c.dev.disk
  last : s.lastSector = sectorOf c.dev.disk (cs.getD c.firstIx 0) + secPerClus c.dev.disk

inductive ReadInv (c : ReadCall) (cs : List ℕ) (s : Read) : Prop
  | start (h : ReadStart c s)
  | locate {i : ℕ} (hpc : s.pc = .locate) (hi : i ≤ c.firstIx) (hentry : s.look.entry = cs.getD i 0)
      (hoff : s.curOffset = i * clusterBytes c.dev.disk) (hfill : s.look.curFatsector ≠ 0 → Filled c.dev s.look)
      (h : Along c cs s i s.look.curFatsector)
  | locateWait {i cached : ℕ} (hpc : s.pc = .locateWait s.look.curFatsector) (hi : i < c.firstIx)
      (hwait : Waiting c.dev c.fat (cs.getD i 0) s.look) (hok : LookupOk c.fat cached (cs.getD i 0))
      (hoff : s.curOffset = i * clusterBytes c.dev.disk) (h : Along c cs s (i + 1) (c.fat.lastSec (cs.getD i 0)))
  | loop (h : Ready c cs s)
  | data {s₀ : Read} (h : Ready c cs s₀) (hremain : s₀.remainSize ≠ 0) (hs : s = s₀.loop c)
  | nextWait {cached : ℕ} (hpc : s.pc = .nextWait s.look.curFatsector) (h : AtEnd c cs s)
      (hwait : Waiting c.dev c.fat (cs.getD c.firstIx 0) s.look) (hok : LookupOk c.fat cached (cs.getD c.firstIx 0))
  | fail (hpc : s.pc = .done .fail) (hcrit : s.entered = 1 ∧ s.left = 1)
  | finished (hpc : s.pc = .done .none) (hcrit : s.entered = 1 ∧ s.left = 1) (hsize : s.rsize = c.size)
      (hbytes : ∀ j < s.rsize, s.buff j = fileByte c.dev.disk cs (c.offset + j))

variable {s : Read}

theorem sectorOf_add {b : ℕ} (h2 : 2 ≤ b) (k : ℕ) : sectorOf m (b + k) = sectorOf m b + k * secPerClus m := by
  unfold sectorOf
  rw [show b + k - 2 = b - 2 + k by omega, add_mul, ← add_assoc]

theorem AtEnd.lt (h : AtEnd c cs s) (hf : FileOn c size cs) : c.firstIx < c.lastIx := by
  have hpos : bytsPerSec c.dev.disk * sectorIx c s + (c.offset + s.curSize) % bytsPerSec c.dev.disk = c.offset + s.curSize :=
    Nat.div_add_mod _ _
  rw [h.at_sector.dvd, add_zero, h.ix] at hpos
  have hsum := h.here.sum
  have hmore := h.more
  have hclus : (c.firstIx + 1) * clusterBytes c.dev.disk =
      bytsPerSec c.dev.disk * ((c.firstIx + 1) * secPerClus c.dev.disk) := by
    rw [clusterBytes]
    ring
  have hle : c.firstIx + 1 ≤ c.lastIx := (Nat.le_div_iff_mul_le hf.clusterBytes_pos).mpr (by omega)
  exact hle

namespace Sound

variable (hs : Sound c size cs) (hf : FileOn c size cs)

include hs hf

omit hf in
theorem straight_from {k : ℕ} (hk : c.firstIx + 1 + k ≤ c.lastIx) :
    cs.getD (c.firstIx + 1 + k) 0 = cs.getD (c.firstIx + 1) 0 + k := by
  induction k with
  | zero => rfl
  | succ k ih =>
    have hstep := hs.straight (c.firstIx + 1 + k) (by omega) (by omega)
    rw [← add_assoc, hstep, ih (by omega), add_assoc]

theorem fileSector_second (hsize : c.size ≠ 0) (hlt : c.firstIx < c.lastIx) {q : ℕ}
    (hlo : (c.firstIx + 1) * secPerClus c.dev.disk ≤ q) (hhi : q < (c.lastIx + 1) * secPerClus c.dev.disk) :
    fileSector c.dev.disk cs q = sectorOf c.dev.disk (cs.getD (c.firstIx + 1) 0) + (q - (c.firstIx + 1) * secPerClus c.dev.disk) := by
  have hpos := (hs.placed hf).clus_le.1
  have hlen := hs.lastIx_lt hf hsize
  obtain ⟨r, rfl⟩ := Nat.exists_eq_add_of_le hlo
  have hq : ((c.firstIx + 1) * secPerClus c.dev.disk + r) / secPerClus c.dev.disk = c.firstIx + 1 + r / secPerClus c.dev.disk := by
    rw [mul_comm, Nat.mul_add_div hpos]
  have hle : c.firstIx + 1 + r / secPerClus c.dev.disk ≤ c.lastIx := by
    rw [← hq]
    exact Nat.lt_succ_iff.mp ((Nat.div_lt_iff_lt_mul hpos).mpr hhi)
  have hmod : ((c.firstIx + 1) * secPerClus c.dev.disk + r) % secPerClus c.dev.disk = r % secPerClus c.dev.disk := by
    rw [mul_comm, Nat.mul_add_mod]
  have hdm := Nat.div_add_mod r (secPerClus c.dev.disk)
  rw [Nat.mul_comm] at hdm
  rw [fileSector, hq, hmod, hs.straight_from hle, sectorOf_add (hf.two_le (by omega)), Nat.add_sub_cancel_left]
  omega

/-- The other clusters are all before the first one, or all more than one behind. -/
theorem second_apart (hlt : c.firstIx < c.lastIx) (hlen : c.lastIx < cs.length) :
    cs.getD c.firstIx 0 + 1 < cs.getD (c.firstIx + 1) 0 ∨
      cs.getD (c.firstIx + 1) 0 + (c.lastIx - c.firstIx) ≤ cs.getD c.firstIx 0 := by
  have hne : ∀ k, c.firstIx + 1 + k ≤ c.lastIx → cs.getD (c.firstIx + 1) 0 + k ≠ cs.getD c.firstIx 0 := by
    intro k hk heq
    rw [← hs.straight_from hk, getD_eq_getElem _ _ (by omega), getD_eq_getElem _ _ (by omega),
      hf.chain.chain.nodup.getElem_inj_iff] at heq
    omega
  have hadj := hs.apart hlt
  by_contra hcon
  obtain ⟨h1, h2⟩ := not_or.mp hcon
  exact hne (cs.getD c.firstIx 0 - cs.getD (c.firstIx + 1) 0) (by omega) (by omega)

theorem second_sectors (hlt : c.firstIx < c.lastIx) (hlen : c.lastIx < cs.length) :
    sectorOf c.dev.disk (cs.getD c.firstIx 0) + secPerClus c.dev.disk < sectorOf c.dev.disk (cs.getD (c.firstIx + 1) 0) ∨
      sectorOf c.dev.disk (cs.getD (c.firstIx + 1) 0) + (c.lastIx - c.firstIx) * secPerClus c.dev.disk <
        sectorOf c.dev.disk (cs.getD c.firstIx 0) + secPerClus c.dev.disk := by
  have hpos := (hs.placed hf).clus_le.1
  have h2a := hf.two_le (show c.firstIx < cs.length by omega)
  have h2b := hf.two_le (show c.firstIx + 1 < cs.length by omega)
  rcases hs.second_apart hf hlt hlen with hab | hba
  · left
    obtain ⟨u, hu⟩ := Nat.exists_eq_add_of_lt hab
    rw [hu, show cs.getD c.firstIx 0 + 1 + u + 1 = cs.getD c.firstIx 0 + (1 + 1 + u) by omega, sectorOf_add h2a,
      add_mul, add_mul, one_mul]
    omega
  · right
    obtain ⟨u, hu⟩ := Nat.exists_eq_add_of_le hba
    rw [hu, add_assoc, sectorOf_add h2b, add_mul]
    omega

theorem second_low (hlt : c.firstIx < c.lastIx) (hlen : c.lastIx < cs.length) :
    sectorOf c.dev.disk (cs.getD c.firstIx 0) + secPerClus c.dev.disk ≤ 2 ^ 23 ∧
      sectorOf c.dev.disk (cs.getD (c.firstIx + 1) 0) + (c.lastIx - c.firstIx) * secPerClus c.dev.disk ≤ 2 ^ 23 := by
  have hsec := hf.sec_pos
  have h2b := hf.two_le (show c.firstIx + 1 < cs.length by omega)
  have h23 : ∀ x, x * bytsPerSec c.dev.disk ≤ 2 ^ 32 → x ≤ 2 ^ 23 := by
    intro x hx
    have := (Nat.mul_le_mul_left x hsec.1).trans hx
    omega
  refine ⟨h23 _ (hs.low c.firstIx le_rfl (by omega)), h23 _ ?_⟩
  obtain ⟨N, hN⟩ := Nat.exists_eq_add_of_lt hlt
  have hlow := hs.low c.lastIx (by omega) le_rfl
  have hlast : cs.getD c.lastIx 0 = cs.getD (c.firstIx + 1) 0 + N := by
    rw [hN, show c.firstIx + N + 1 = c.firstIx + 1 + N by omega]
    exact hs.straight_from (by omega)
  rw [hlast, sectorOf_add h2b, add_assoc, ← Nat.succ_mul] at hlow
  rwa [show c.lastIx - c.firstIx = N.succ by omega]

omit hs in
theorem left_le (h : AtEnd c cs s) (hlt : c.firstIx < c.lastIx) :
    s.remainSize / bytsPerSec c.dev.disk ≤ (c.lastIx - c.firstIx) * secPerClus c.dev.disk := by
  have hend := hf.end_le
  have hsum := h.here.sum
  have hix : bytsPerSec c.dev.disk * sectorIx c s + (c.offset + s.curSize) % bytsPerSec c.dev.disk = c.offset + s.curSize :=
    Nat.div_add_mod _ _
  rw [h.at_sector.dvd, add_zero, h.ix] at hix
  obtain ⟨N, hN⟩ := Nat.exists_eq_add_of_lt hlt
  have hclus : (c.lastIx + 1) * clusterBytes c.dev.disk = bytsPerSec c.dev.disk * ((c.firstIx + 1) * secPerClus c.dev.disk) +
      bytsPerSec c.dev.disk * ((c.lastIx - c.firstIx) * secPerClus c.dev.disk) := by
    rw [clusterBytes, show c.lastIx - c.firstIx = N + 1 by omega, hN]
    ring
  exact Nat.div_le_of_le_mul (by omega)

/-- **The next cluster**: the end of the first one is still set, but is not met. -/
theorem second (hsize : c.size ≠ 0) (h : AtEnd c cs s) (hclus : s.look.entry = cs.getD (c.firstIx + 1) 0)
    (hlt : c.firstIx < c.lastIx) : Place c cs (s.nextFound c) := by
  have hlen := hs.lastIx_lt hf hsize
  have hleft := left_le hf h hlt
  have hcases := hs.second_sectors hf hlt hlen
  obtain ⟨hlowa, hlowb⟩ := hs.second_low hf hlt hlen
  have hcur : c.fat.clus2sec s.look.entry = sectorOf c.dev.disk (cs.getD (c.firstIx + 1) 0) := by
    rw [hclus]
    exact (hs.placed hf).clus2sec_eq (hf.two_le (by omega)) (by omega)
  refine .second ⟨h.at_sector.off, h.at_sector.dvd⟩ ?_ ?_ ?_
  · intro q hlo hhi
    show fileSector c.dev.disk cs q = c.fat.clus2sec s.look.entry + (q - sectorIx c s)
    have hlo' : (c.firstIx + 1) * secPerClus c.dev.disk ≤ q := h.ix ▸ hlo
    rw [hcur, h.ix]
    exact hs.fileSector_second hf hsize hlt hlo' hhi
  · show s.remainSize / bytsPerSec c.dev.disk ≤ (s.lastSector + 2 ^ 32 - c.fat.clus2sec s.look.entry) % 2 ^ 32
    rw [hcur, h.last]
    generalize s.remainSize / bytsPerSec c.dev.disk = k at hleft
    rcases hcases with hlt | hlt
    · omega
    · omega
  · intro _
    show c.fat.clus2sec s.look.entry + s.remainSize / bytsPerSec c.dev.disk ≠ s.lastSector
    rw [hcur, h.last]
    generalize s.remainSize / bytsPerSec c.dev.disk = k at hleft
    rcases hcases with hlt | hlt
    · omega
    · omega

end Sound

/-! ### The steps -/

theorem looked_cases (hp : Placed c.dev c.fat) {cl cl' : ℕ} {r : Lookup × LookupOut} (hr : Looked c.dev c.fat cl r)
    (hnext : next c.dev.disk cl = some cl') (h2 : 2 ≤ cl') (s : Read) (wait : ℕ → ReadPc) (found : Read → Read) :
    (∃ l, s.looked c r wait found = { s with look := l, pc := wait l.curFatsector } ∧ Waiting c.dev c.fat cl l) ∨
      ∃ l, s.looked c r wait found = found { s with look := l } ∧ l.entry = cl' ∧ Filled c.dev l ∧
        l.curFatsector = c.fat.lastSec cl := by
  obtain ⟨hvalid, hmasked⟩ := hp.entry_next hnext h2
  match r, hr with
  | (l, .wait sector), ⟨hwait, hsec⟩ =>
    subst hsec
    exact .inl ⟨l, rfl, hwait⟩
  | (l, .done), ⟨hentry, hfill, hlast⟩ =>
    refine .inr ⟨{ l with entry := l.entry % 2 ^ 28 }, ?_, ?_, hfill, hlast⟩
    · unfold Read.looked
      dsimp only
      rw [if_neg (by rw [hentry, hvalid]; decide)]
    · rw [← hmasked, ← hentry]

namespace Sound

variable (hs : Sound c size cs) (hf : FileOn c size cs) (hsize : c.size ≠ 0)

include hs hf hsize

theorem next_first (hlt : c.firstIx < c.lastIx) :
    next c.dev.disk (cs.getD c.firstIx 0) = some (cs.getD (c.firstIx + 1) 0) ∧ 2 ≤ cs.getD (c.firstIx + 1) 0 := by
  have hlen := hs.lastIx_lt hf hsize
  exact ⟨hf.chain.chain.next_getD 0 (by omega), hf.two_le (by omega)⟩

/-- **The next cluster, or the wait for it.** -/
theorem next_inv (h : AtEnd c cs s) (hlt : c.firstIx < c.lastIx) {cached : ℕ} (hok : LookupOk c.fat cached (cs.getD c.firstIx 0))
    {r : Lookup × LookupOut} (hr : Looked c.dev c.fat (cs.getD c.firstIx 0) r) :
    ReadInv c cs (s.looked c r .nextWait (Read.nextFound c)) := by
  obtain ⟨hnext, h2⟩ := hs.next_first hf hsize hlt
  rcases looked_cases (hs.placed hf) hr hnext h2 s .nextWait (Read.nextFound c) with ⟨l, heq, hwait⟩ | ⟨l, heq, hentry, -, -⟩
  · rw [heq]
    exact .nextWait rfl { h with here := { h.here with }, at_sector := { h.at_sector with } } hwait hok
  · rw [heq]
    have hend : AtEnd c cs { s with look := l } := { h with here := { h.here with }, at_sector := { h.at_sector with } }
    exact .loop ⟨rfl, { h.here with }, hs.second hf hsize hend hentry hlt⟩

/-- **The end of the second loop**, in the first cluster. -/
theorem advance_inv (hh : Here c cs s) (h : s.remainSize ≠ 0 → AtSector c s ∧ InFirst c cs s ∧ NextOk c cs s ∧
      c.firstIx * secPerClus c.dev.disk ≤ sectorIx c s ∧ sectorIx c s ≤ (c.firstIx + 1) * secPerClus c.dev.disk ∧
      s.curSector = sectorOf c.dev.disk (cs.getD c.firstIx 0) + (sectorIx c s - c.firstIx * secPerClus c.dev.disk)) :
    ReadInv c cs (s.advance c) := by
  unfold Read.advance
  by_cases hremain : s.remainSize = 0
  · rw [if_neg fun h => h.1 hremain]
    exact .loop ⟨rfl, { hh with }, .finished hremain⟩
  · obtain ⟨hat, hin, hnext, hlo, hhi, hcur⟩ := h hremain
    rw [add_mul, one_mul] at hhi
    by_cases hend : s.curSector = s.lastSector
    · rw [if_pos ⟨hremain, hend⟩]
      have hix : sectorIx c s = (c.firstIx + 1) * secPerClus c.dev.disk := by
        rw [hin.last] at hend
        rw [add_mul, one_mul]
        omega
      have hatEnd : AtEnd c cs s := ⟨hh, hremain, hat, hix, hin.last⟩
      have hlt := hatEnd.lt hf
      have hok := hnext.ok hlt
      have hlen := hs.lastIx_lt hf hsize
      have hlook := lookupStart_spec (hs.placed hf) hok hin.clus (hf.two_le (by omega)) hnext.filled
        (by rw [(hs.placed hf).fatbase]; exact hf.valid.reserved)
      exact hs.next_inv hf hsize hatEnd hlt hok hlook
    · rw [if_neg fun h => hend h.2]
      have hlt : sectorIx c s < (c.firstIx + 1) * secPerClus c.dev.disk := by
        rw [hin.last] at hend
        rw [add_mul, one_mul]
        omega
      exact .loop ⟨rfl, { hh with }, .first { hat with } hlt { hin with } (hcur.trans (fileSector_in cs hlo hlt).symm) { hnext with }⟩

end Sound

theorem Here.sectorIx_le (hh : Here c cs s) (hf : FileOn c size cs) (hremain : s.remainSize ≠ 0) :
    c.firstIx * secPerClus c.dev.disk ≤ sectorIx c s ∧ sectorIx c s < (c.lastIx + 1) * secPerClus c.dev.disk := by
  have hsec := hf.sec_pos
  have hsum := hh.sum
  have hfirst : c.firstIx * clusterBytes c.dev.disk ≤ c.offset := Nat.div_mul_le_self _ _
  have hend := hf.end_le
  constructor
  · refine (Nat.le_div_iff_mul_le (by omega)).mpr ?_
    rw [Nat.mul_assoc]
    exact hfirst.trans (by omega)
  · refine (Nat.div_lt_iff_lt_mul (by omega)).mpr ?_
    rw [Nat.mul_assoc]
    exact lt_of_lt_of_le (by omega) hend

theorem run_bytes (hp : Placed c.dev c.fat) {run : ℕ} (hh : Here c cs s) (hdvd : (c.offset + s.curSize) % bytsPerSec c.dev.disk = 0)
    (hpos : 0 < bytsPerSec c.dev.disk) (hrun : ∀ k < run, fileSector c.dev.disk cs (sectorIx c s + k) = s.curSector + k)
    (hlow : (s.curSector + 1) * bytsPerSec c.dev.disk ≤ 2 ^ 32) (hnum : run * bytsPerSec c.dev.disk < 2 ^ 32) :
    ∀ j < s.curSize + run * bytsPerSec c.dev.disk,
      c.dev.deliver s.curSector run s.curSize s.buff j = fileByte c.dev.disk cs (c.offset + j) := by
  intro j hj
  by_cases hlt : j < s.curSize
  · rw [deliver_other hlt, hh.bytes j hlt]
  · obtain ⟨x, rfl⟩ := Nat.exists_eq_add_of_le (Nat.not_lt.mp hlt)
    have hx : x / bytsPerSec c.dev.disk < run := (Nat.div_lt_iff_lt_mul hpos).mpr (by omega)
    have hix : bytsPerSec c.dev.disk * sectorIx c s + (c.offset + s.curSize) % bytsPerSec c.dev.disk = c.offset + s.curSize :=
      Nat.div_add_mod _ _
    have hdm := Nat.div_add_mod x (bytsPerSec c.dev.disk)
    have hj' : c.offset + (s.curSize + x) =
        (sectorIx c s + x / bytsPerSec c.dev.disk) * bytsPerSec c.dev.disk + x % bytsPerSec c.dev.disk := by
      rw [add_mul, mul_comm (sectorIx c s), mul_comm (x / _)]
      omega
    rw [deliver_byte hp hlow hnum (Nat.le_add_right _ _) hj, fileByte_at hj' (Nat.mod_lt _ hpos), hrun _ hx,
      Nat.add_sub_cancel_left, Nat.add_mul, Nat.mul_comm (x / _), Nat.add_assoc, hdm]

theorem part_bytes (hh : Here c cs s) {buffer : Mem} {t n : ℕ}
    (hbuf : ∀ i < bytsPerSec c.dev.disk, buffer i = c.dev.disk (s.curSector * bytsPerSec c.dev.disk + i))
    (ht : (c.offset + s.curSize) % bytsPerSec c.dev.disk = t) (hn : t + n ≤ bytsPerSec c.dev.disk)
    (hcur : s.curSector = fileSector c.dev.disk cs (sectorIx c s)) :
    ∀ j < s.curSize + n, memcpy s.buff s.curSize buffer t n j = fileByte c.dev.disk cs (c.offset + j) := by
  intro j hj
  by_cases hlt : j < s.curSize
  · rw [memcpy, if_neg (by omega), hh.bytes j hlt]
  · obtain ⟨x, rfl⟩ := Nat.exists_eq_add_of_le (not_lt.mp hlt)
    have hix : bytsPerSec c.dev.disk * sectorIx c s + (c.offset + s.curSize) % bytsPerSec c.dev.disk = c.offset + s.curSize :=
      Nat.div_add_mod _ _
    have hj' : c.offset + (s.curSize + x) = sectorIx c s * bytsPerSec c.dev.disk + (t + x) := by
      rw [mul_comm (sectorIx c s)]
      omega
    rw [memcpy, if_pos ⟨by omega, hj⟩, Nat.add_sub_cancel_left, hbuf _ (by omega), fileByte_at hj' (by omega), hcur]

namespace Sound

variable (hs : Sound c size cs) (hf : FileOn c size cs) (hsize : c.size ≠ 0)

include hs hf hsize

/-- **The part in front of the first sector boundary.** -/
theorem resume_head (h : Ready c cs s) (hremain : s.remainSize ≠ 0) (hzero : s.curSize = 0)
    (hne : c.offset % bytsPerSec c.dev.disk ≠ 0) (hoff : s.curOffset = c.offset - c.offset % bytsPerSec c.dev.disk)
    (hin : InFirst c cs s) (hcur : s.curSector = fileSector c.dev.disk cs (sectorIx c s)) {sector num : ℕ}
    (hreq : (s.loop c).request = some (sector, num)) : ReadInv c cs (((s.loop c).filled c sector num none).resume c true) := by
  have hp := hs.placed hf
  have hsec := hf.sec_pos
  have heven := hf.sec_even
  obtain ⟨hhalf, hroom⟩ := hs.aligned.resolve_left hne
  have hmod := Nat.mod_le c.offset (bytsPerSec c.dev.disk)
  have hoffne : s.curOffset ≠ c.offset := by omega
  have hsum := h.here.sum
  have hlt := hf.request_lt
  have hofflt := hf.offset_lt
  have hloop : s.loop c = { s with
      curRunSize := c.offset % bytsPerSec c.dev.disk
      curRunSector := 1
      look := { s.look with curFatsector := 0 }
      pc := .dataWait } := by
    rw [Read.loop, if_neg hremain, if_pos hoffne, hp.sectorsize]
  rw [hloop] at hreq ⊢
  obtain ⟨rfl, rfl⟩ := Prod.mk.inj (some.inj hreq)
  obtain ⟨hlo, hhi⟩ := h.here.sectorIx_le hf hremain
  have hlow := hs.sector_low hf hlo hhi
  rw [← hcur] at hlow
  have hbytes := part_bytes h.here (deliver_sector hp hlow (by omega) s.look.buffer) (t := c.offset % bytsPerSec c.dev.disk)
    (n := c.offset % bytsPerSec c.dev.disk) (by rw [hzero, add_zero]) (by omega) hcur
  simp only [Read.filled, Read.toBuff, hoffne, decide_false, Bool.false_and, Bool.false_eq_true, if_false, Read.resume,
    getD_none, Read.copied, ne_eq, not_false_eq_true, if_true, Read.counted, hp.sectorsize, Bool.true_eq_false]
  have hcur32 : (s.curSector + 1) % 2 ^ 32 = s.curSector + 1 := by
    have := (Nat.mul_le_mul_left (s.curSector + 1) hsec.1).trans hlow
    omega
  have hoff64 : (s.curOffset + c.offset % bytsPerSec c.dev.disk) % 2 ^ 64 = c.offset := by omega
  have hsize32 : (s.curSize + c.offset % bytsPerSec c.dev.disk) % 2 ^ 32 = s.curSize + c.offset % bytsPerSec c.dev.disk := by omega
  have hleft : (s.remainSize + 2 ^ 32 - c.offset % bytsPerSec c.dev.disk) % 2 ^ 32 = s.remainSize - c.offset % bytsPerSec c.dev.disk := by
    omega
  have hhalf' : bytsPerSec c.dev.disk - c.offset % bytsPerSec c.dev.disk = c.offset % bytsPerSec c.dev.disk := by omega
  rw [hcur32, hoff64, h.here.rsize, hsize32, hleft, hhalf']
  rw [hzero] at hbytes ⊢
  have hix : sectorIx c s = c.offset / bytsPerSec c.dev.disk := by rw [sectorIx, hzero, add_zero]
  have hnext : (c.offset + (0 + c.offset % bytsPerSec c.dev.disk)) = bytsPerSec c.dev.disk * (sectorIx c s + 1) := by
    have := Nat.div_add_mod c.offset (bytsPerSec c.dev.disk)
    rw [hix, mul_add, mul_one]
    omega
  have hin1 : sectorIx c s < (c.firstIx + 1) * secPerClus c.dev.disk := by
    have hpos := hf.clusterBytes_pos
    have hup := Nat.lt_div_mul_add (a := c.offset) hpos
    rw [hix]
    refine (Nat.div_lt_iff_lt_mul (by omega)).mpr ?_
    rw [Nat.mul_assoc, ← clusterBytes, Nat.add_mul, Nat.one_mul]
    exact hup
  have hfs := fileSector_in cs hlo hin1
  refine hs.advance_inv hf hsize ⟨?_, rfl, hbytes, h.here.entered, h.here.left⟩ fun _ =>
    ⟨⟨rfl, ?_⟩, ⟨hin.clus, hin.last⟩, ⟨fun hlt => ?_, fun hne0 => ?_⟩, ?_⟩
  · show 0 + c.offset % bytsPerSec c.dev.disk + (s.remainSize - c.offset % bytsPerSec c.dev.disk) = c.size
    omega
  · show (c.offset + (0 + c.offset % bytsPerSec c.dev.disk)) % bytsPerSec c.dev.disk = 0
    rw [hnext, Nat.mul_mod_right]
  · have := hs.hop hlt
    rwa [if_neg hne] at this
  · exact absurd rfl hne0
  · unfold sectorIx
    dsimp only
    rw [hnext, Nat.mul_div_cancel_left _ (by omega), hcur, hfs]
    omega

/-- **The part behind the last sector boundary.** -/
theorem resume_tail (h : Ready c cs s) (hremain : s.remainSize ≠ 0) (hat : AtSector c s)
    (hless : s.remainSize < bytsPerSec c.dev.disk) (hcur : s.curSector = fileSector c.dev.disk cs (sectorIx c s)) {sector num : ℕ}
    (hreq : (s.loop c).request = some (sector, num)) : ReadInv c cs (((s.loop c).filled c sector num none).resume c true) := by
  have hp := hs.placed hf
  have hsec := hf.sec_pos
  have hsum := h.here.sum
  have hlt := hf.request_lt
  have hloop : s.loop c = { s with
      curRunSize := s.remainSize
      curRunSector := 1
      look := { s.look with curFatsector := 0 }
      pc := .dataWait } := by
    rw [Read.loop, if_neg hremain, if_neg (not_not.mpr hat.off), hp.sectorsize, if_pos hless]
  rw [hloop] at hreq ⊢
  obtain ⟨rfl, rfl⟩ := Prod.mk.inj (some.inj hreq)
  obtain ⟨hlo, hhi⟩ := h.here.sectorIx_le hf hremain
  have hlow := hs.sector_low hf hlo hhi
  rw [← hcur] at hlow
  have hbytes := part_bytes h.here (deliver_sector hp hlow (by omega) s.look.buffer) (t := 0) (n := s.remainSize) hat.dvd (by omega) hcur
  have hnot : ¬ bytsPerSec c.dev.disk ≤ s.remainSize := by omega
  simp only [Read.filled, Read.toBuff, hat.off, hnot, decide_false, Bool.and_false, Bool.false_eq_true, if_false, Read.resume,
    getD_none, Read.copied, ne_eq, not_true_eq_false, hless, if_true, Read.counted, hp.sectorsize, Bool.true_eq_false]
  have hsize32 : (s.curSize + s.remainSize) % 2 ^ 32 = s.curSize + s.remainSize := by omega
  have hleft : (s.remainSize + 2 ^ 32 - s.remainSize) % 2 ^ 32 = 0 := by omega
  rw [h.here.rsize, hsize32, hleft]
  exact hs.advance_inv hf hsize ⟨hsum, rfl, hbytes, h.here.entered, h.here.left⟩ fun hne => absurd rfl hne

omit hsize in
/-- **Whole sectors.** -/
theorem resume_run (h : Ready c cs s) (hat : AtSector c s) (hmore : bytsPerSec c.dev.disk ≤ s.remainSize) {run : ℕ}
    (hmin : min ((s.lastSector + 2 ^ 32 - s.curSector) % 2 ^ 32) (s.remainSize / bytsPerSec c.dev.disk) = run)
    (hrun : ∀ k < run, fileSector c.dev.disk cs (sectorIx c s + k) = s.curSector + k) (hpos : 0 < run) {sector num : ℕ}
    (hreq : (s.loop c).request = some (sector, num)) :
    ∃ s', ((s.loop c).filled c sector num none).resume c true = s'.advance c ∧ Here c cs s' ∧ AtSector c s' ∧
      sectorIx c s' = sectorIx c s + run ∧ s'.remainSize = s.remainSize - run * bytsPerSec c.dev.disk ∧
      s'.curSector = s.curSector + run ∧ s'.lastSector = s.lastSector ∧ s'.look = s.look := by
  have hp := hs.placed hf
  have hsec := hf.sec_pos
  have hsum := h.here.sum
  have hlt := hf.request_lt
  have hle : run * bytsPerSec c.dev.disk ≤ s.remainSize :=
    (Nat.mul_le_mul_right _ (hmin ▸ Nat.min_le_right _ _)).trans (Nat.div_mul_le_self _ _)
  have hloop : s.loop c = { s with
      curRunSector := run
      curRunSize := run * bytsPerSec c.dev.disk
      pc := .dataWait } := by
    rw [Read.loop, if_neg (by omega), if_neg (not_not.mpr hat.off), hp.sectorsize, if_neg (by omega), hmin]
    dsimp only
    rw [Nat.mod_eq_of_lt (show run * bytsPerSec c.dev.disk < 2 ^ 32 by omega)]
  rw [hloop] at hreq ⊢
  obtain ⟨rfl, rfl⟩ := Prod.mk.inj (some.inj hreq)
  have hremain : s.remainSize ≠ 0 := by omega
  obtain ⟨hlo, hhi⟩ := h.here.sectorIx_le hf hremain
  have hcur := hrun 0 hpos
  rw [add_zero, add_zero] at hcur
  have hlow := hs.sector_low hf hlo hhi
  rw [hcur] at hlow
  have hbytes := run_bytes hp h.here hat.dvd (by omega) hrun hlow (by omega)
  have hless : ¬ s.remainSize < bytsPerSec c.dev.disk := by omega
  simp only [Read.filled, Read.toBuff, hat.off, hmore, hless, decide_true, Bool.and_self, if_false, Read.resume,
    getD_none, Read.copied, ne_eq, not_true_eq_false, if_true, Read.counted, hp.sectorsize, Bool.true_eq_false]
  have hcur32 : (s.curSector + run) % 2 ^ 32 = s.curSector + run := by
    have h1 := (Nat.mul_le_mul_left (s.curSector + 1) hsec.1).trans hlow
    have h2 : run * 512 ≤ run * bytsPerSec c.dev.disk := Nat.mul_le_mul_left _ hsec.1
    omega
  have hsize32 : (s.curSize + run * bytsPerSec c.dev.disk) % 2 ^ 32 = s.curSize + run * bytsPerSec c.dev.disk := by omega
  have hleft : (s.remainSize + 2 ^ 32 - run * bytsPerSec c.dev.disk) % 2 ^ 32 = s.remainSize - run * bytsPerSec c.dev.disk := by omega
  rw [hcur32, h.here.rsize, hsize32, hleft]
  refine ⟨_, rfl, ⟨?_, rfl, hbytes, h.here.entered, h.here.left⟩, ⟨rfl, ?_⟩, ?_, rfl, rfl, rfl, rfl⟩
  · show s.curSize + run * bytsPerSec c.dev.disk + (s.remainSize - run * bytsPerSec c.dev.disk) = c.size
    omega
  · show (c.offset + (s.curSize + run * bytsPerSec c.dev.disk)) % bytsPerSec c.dev.disk = 0
    rw [← add_assoc, Nat.add_mul_mod_self_right, hat.dvd]
  · show (c.offset + (s.curSize + run * bytsPerSec c.dev.disk)) / bytsPerSec c.dev.disk = sectorIx c s + run
    rw [← add_assoc, Nat.add_mul_div_right _ _ (by omega), sectorIx]

/-- **Data was read.** -/
theorem resume_inv (h : Ready c cs s) (hremain : s.remainSize ≠ 0) {sector num : ℕ}
    (hreq : (s.loop c).request = some (sector, num)) : ReadInv c cs (((s.loop c).filled c sector num none).resume c true) := by
  have hsec := hf.sec_pos
  obtain ⟨hlo, hhi⟩ := h.here.sectorIx_le hf hremain
  rcases h.place with ⟨hzero, hne, hoff, hin, hcur⟩ | ⟨hat, hlt, hin, hcur, hnext⟩ | ⟨hat, hcur, hroom, hstop⟩ | hzero
  · exact hs.resume_head hf hsize h hremain hzero hne hoff hin hcur hreq
  · by_cases hless : s.remainSize < bytsPerSec c.dev.disk
    · exact hs.resume_tail hf hsize h hremain hat hless hcur hreq
    · -- up to the end of the cluster
      have hfs := fileSector_in cs hlo hlt
      rw [Nat.add_mul, Nat.one_mul] at hlt
      have hlow := hs.low c.firstIx le_rfl (ReadCall.firstIx_le hsize)
      have hlow23 := (Nat.mul_le_mul_left _ hsec.1).trans hlow
      have hend : (s.lastSector + 2 ^ 32 - s.curSector) % 2 ^ 32 =
          c.firstIx * secPerClus c.dev.disk + secPerClus c.dev.disk - sectorIx c s := by
        rw [hin.last, hcur, hfs]
        omega
      have hpos : 0 < s.remainSize / bytsPerSec c.dev.disk := Nat.div_pos (by omega) (by omega)
      generalize hk : min (c.firstIx * secPerClus c.dev.disk + secPerClus c.dev.disk - sectorIx c s)
        (s.remainSize / bytsPerSec c.dev.disk) = run
      have hrunpos : 0 < run := hk ▸ lt_min (by omega) hpos
      have hrunle : run ≤ c.firstIx * secPerClus c.dev.disk + secPerClus c.dev.disk - sectorIx c s := hk ▸ Nat.min_le_left _ _
      have hmin : min ((s.lastSector + 2 ^ 32 - s.curSector) % 2 ^ 32) (s.remainSize / bytsPerSec c.dev.disk) = run := by
        rw [hend, hk]
      clear hend hk hpos
      have hrun : ∀ k < run, fileSector c.dev.disk cs (sectorIx c s + k) = s.curSector + k := by
        intro k hkrun
        clear hmin hlow hlow23
        rw [fileSector_in cs (i := c.firstIx) (by omega) (by rw [Nat.add_mul, Nat.one_mul]; omega), hcur, hfs, Nat.add_assoc,
          Nat.sub_add_comm hlo]
      obtain ⟨s', heq, hh', hat', hix', hrem', hcur', hlast', hlook'⟩ := hs.resume_run hf h hat (Nat.le_of_not_lt hless) hmin
        hrun hrunpos hreq
      rw [heq]
      refine hs.advance_inv hf hsize hh' fun _ => ⟨hat', ⟨?_, ?_⟩, ⟨?_, ?_⟩, ?_, ?_, ?_⟩
      · rw [hlook', hin.clus]
      · rw [hlast', hin.last]
      · rw [hlook']
        exact hnext.ok
      · rw [hlook']
        exact hnext.filled
      · rw [hix']
        exact hlo.trans (Nat.le_add_right _ _)
      · rw [hix', Nat.add_mul, Nat.one_mul]
        clear hmin
        omega
      · rw [hcur', hix', hcur, hfs, Nat.add_assoc, Nat.sub_add_comm hlo]
  · have hcur0 : s.curSector = fileSector c.dev.disk cs (sectorIx c s) := by
      rw [hcur _ le_rfl hhi]
      omega
    by_cases hless : s.remainSize < bytsPerSec c.dev.disk
    · exact hs.resume_tail hf hsize h hremain hat hless hcur0 hreq
    · -- all the sectors that are left
      have hpos : 0 < s.remainSize / bytsPerSec c.dev.disk := Nat.div_pos (by omega) (by omega)
      have hixle : sectorIx c s + s.remainSize / bytsPerSec c.dev.disk ≤ (c.lastIx + 1) * secPerClus c.dev.disk := by
        have hend := hf.end_le
        have hsum := h.here.sum
        have hbelow := Nat.div_mul_le_self s.remainSize (bytsPerSec c.dev.disk)
        have hix := Nat.div_mul_le_self (c.offset + s.curSize) (bytsPerSec c.dev.disk)
        refine Nat.le_of_mul_le_mul_right ?_ (show 0 < bytsPerSec c.dev.disk by omega)
        rw [Nat.add_mul, Nat.mul_assoc, ← clusterBytes, sectorIx]
        omega
      obtain ⟨s', heq, hh', hat', hix', hrem', hcur', hlast', hlook'⟩ := hs.resume_run hf h hat (by omega)
        (Nat.min_eq_right hroom) (fun k hk => by rw [hcur _ (Nat.le_add_right _ _) (by omega), Nat.add_sub_cancel_left]) hpos hreq
      have hmod : s'.remainSize = s.remainSize % bytsPerSec c.dev.disk := by
        have := Nat.div_add_mod s.remainSize (bytsPerSec c.dev.disk)
        rw [Nat.mul_comm] at this
        omega
      have hmodlt := Nat.mod_lt s.remainSize (show 0 < bytsPerSec c.dev.disk by omega)
      have hdiv : s'.remainSize / bytsPerSec c.dev.disk = 0 := Nat.div_eq_of_lt (by omega)
      have hstop' : s'.remainSize ≠ 0 → s'.curSector ≠ s'.lastSector := by
        intro hne
        rw [hcur', hlast']
        exact hstop (hmod ▸ hne)
      rw [heq, Read.advance, if_neg fun hcon => hstop' hcon.1 hcon.2]
      by_cases hzero : s'.remainSize = 0
      · exact .loop ⟨rfl, { hh' with }, .finished hzero⟩
      · refine .loop ⟨rfl, { hh' with }, .second { hat' with } (fun q hlo' hhi' => ?_) ?_ fun _ => ?_⟩
        · have hlo' : sectorIx c s' ≤ q := hlo'
          show fileSector c.dev.disk cs q = s'.curSector + (q - sectorIx c s')
          rw [hcur q (by omega) hhi', hcur', hix']
          omega
        · show s'.remainSize / bytsPerSec c.dev.disk ≤ _
          rw [hdiv]
          exact Nat.zero_le _
        · show s'.curSector + s'.remainSize / bytsPerSec c.dev.disk ≠ s'.lastSector
          rw [hdiv]
          exact hstop' hzero
  · exact absurd hzero hremain

theorem drop_take (hi : i < c.firstIx) : (cs.take c.firstIx).drop i = cs.getD i 0 :: (cs.take c.firstIx).drop (i + 1) := by
  have hlen := hs.lastIx_lt hf hsize
  have hle := ReadCall.firstIx_le hsize
  rw [drop_eq_getElem_cons (by rw [length_take]; omega), getElem_take, getD_eq_getElem _ _ (by omega)]

/-- **A cluster further, or the wait for it.** -/
theorem located_inv (hi : i < c.firstIx) (hoff : s.curOffset = i * clusterBytes c.dev.disk)
    (h : Along c cs s (i + 1) (c.fat.lastSec (cs.getD i 0))) {cached : ℕ} (hok : LookupOk c.fat cached (cs.getD i 0))
    {r : Lookup × LookupOut} (hr : Looked c.dev c.fat (cs.getD i 0) r) :
    ReadInv c cs (s.looked c r .locateWait (Read.located c)) := by
  have hlen := hs.lastIx_lt hf hsize
  have hle := ReadCall.firstIx_le hsize
  have hinside := hs.inside
  have hlt := hf.size_lt
  rcases looked_cases (hs.placed hf) hr (hf.chain.chain.next_getD 0 (by omega)) (hf.two_le (by omega)) s .locateWait
    (Read.located c) with ⟨l, heq, hwait⟩ | ⟨l, heq, hentry, hfill, hlast⟩
  · rw [heq]
    exact .locateWait rfl hi hwait hok hoff { h with }
  · rw [heq]
    refine .locate rfl hi hentry ?_ (fun _ => hfill) { h with hops := hlast ▸ h.hops, after := hlast ▸ h.after }
    have hmul : (i + 1) * clusterBytes c.dev.disk ≤ c.offset := (Nat.le_div_iff_mul_le hf.clusterBytes_pos).mp hi
    show (s.curOffset + Read.clustersize c) % 2 ^ 64 = (i + 1) * clusterBytes c.dev.disk
    rw [hs.clustersize_eq hf, hoff, ← add_one_mul]
    exact Nat.mod_eq_of_lt (by omega)

/-- **The head of the first loop.** -/
theorem locate_inv (hi : i ≤ c.firstIx) (hentry : s.look.entry = cs.getD i 0)
    (hoff : s.curOffset = i * clusterBytes c.dev.disk) (hfill : s.look.curFatsector ≠ 0 → Filled c.dev s.look)
    (h : Along c cs s i s.look.curFatsector) : ReadInv c cs (s.locate c) := by
  have hp := hs.placed hf
  have hsec := hf.sec_pos
  have hlen := hs.lastIx_lt hf hsize
  have hle := ReadCall.firstIx_le hsize
  have hinside := hs.inside
  have hlt := hf.size_lt
  have hcb := hf.clusterBytes_pos
  have hbase : i * clusterBytes c.dev.disk ≤ c.offset := (Nat.le_div_iff_mul_le hcb).mp hi
  have hcl : clusterBytes c.dev.disk ≤ 128 * 4096 := Nat.mul_le_mul hp.clus_le.2 hsec.2
  unfold Read.locate
  rw [hs.clustersize_eq hf, hoff, ← add_one_mul, Nat.mod_eq_of_lt (by rw [add_one_mul]; omega)]
  by_cases hgo : (i + 1) * clusterBytes c.dev.disk ≤ c.offset
  · rw [if_pos hgo]
    have hi' : i < c.firstIx := (Nat.le_div_iff_mul_le hcb).mpr hgo
    obtain ⟨hok, hops⟩ : Hops c.fat s.look.curFatsector (cs.getD i 0 :: (cs.take c.firstIx).drop (i + 1)) := by
      rw [← hs.drop_take hf hsize hi']
      exact h.hops
    have hafter := h.after
    rw [hs.drop_take hf hsize hi'] at hafter
    have hlook := lookupStart_spec hp hok hentry (hf.two_le (by omega)) hfill (by rw [hp.fatbase]; exact hf.valid.reserved)
    exact hs.located_inv hf hsize hi' hoff { h with hops := hops, after := hafter } hok hlook
  · rw [if_neg hgo]
    have hik : i = c.firstIx := le_antisymm hi (Nat.lt_succ_iff.mp ((Nat.div_lt_iff_lt_mul hcb).mpr (Nat.not_le.mp hgo)))
    subst hik
    have hlow := hs.low c.firstIx le_rfl hle
    have hlow23 := (Nat.mul_le_mul_left _ hsec.1).trans hlow
    have hclus : c.fat.clus2sec s.look.entry = sectorOf c.dev.disk (cs.getD c.firstIx 0) := by
      rw [hentry]
      exact hp.clus2sec_eq (hf.two_le (by omega)) (by omega)
    -- the sector of the offset in its cluster
    have hix : c.offset / bytsPerSec c.dev.disk = c.firstIx * secPerClus c.dev.disk +
        c.offset % clusterBytes c.dev.disk / bytsPerSec c.dev.disk := by
      have hdm := Nat.div_add_mod c.offset (clusterBytes c.dev.disk)
      conv_lhs => rw [← hdm]
      have hexp : clusterBytes c.dev.disk * (c.offset / clusterBytes c.dev.disk) =
          bytsPerSec c.dev.disk * (c.firstIx * secPerClus c.dev.disk) := by
        rw [ReadCall.firstIx, clusterBytes]
        ring
      rw [hexp, Nat.mul_add_div (by omega)]
    have hinclus : c.offset % clusterBytes c.dev.disk / bytsPerSec c.dev.disk < secPerClus c.dev.disk :=
      (Nat.div_lt_iff_lt_mul (by omega)).mpr (Nat.mod_lt _ hcb)
    dsimp only
    rw [hclus, hp.clustersize, hp.sectorsize]
    obtain ⟨k, hk⟩ : ∃ k, c.offset % clusterBytes c.dev.disk / bytsPerSec c.dev.disk = k := ⟨_, rfl⟩
    rw [hk] at hix hinclus ⊢
    have hixlt : c.offset / bytsPerSec c.dev.disk < (c.firstIx + 1) * secPerClus c.dev.disk := by
      rw [add_mul, one_mul]
      omega
    have hfs := fileSector_in cs (show c.firstIx * secPerClus c.dev.disk ≤ c.offset / bytsPerSec c.dev.disk by omega) hixlt
    have hlast32 : (sectorOf c.dev.disk (cs.getD c.firstIx 0) + secPerClus c.dev.disk) % 2 ^ 32 =
        sectorOf c.dev.disk (cs.getD c.firstIx 0) + secPerClus c.dev.disk := Nat.mod_eq_of_lt (by omega)
    have hcur32 : (sectorOf c.dev.disk (cs.getD c.firstIx 0) + k) % 2 ^ 32 =
        fileSector c.dev.disk cs (c.offset / bytsPerSec c.dev.disk) := by
      rw [hfs, Nat.mod_eq_of_lt (by omega)]
      omega
    rw [hlast32, hcur32]
    have hhere : Here c cs { s with
        curSize := 0
        remainSize := c.size
        lastSector := sectorOf c.dev.disk (cs.getD c.firstIx 0) + secPerClus c.dev.disk
        curSector := fileSector c.dev.disk cs (c.offset / bytsPerSec c.dev.disk)
        curOffset := c.offset - c.offset % bytsPerSec c.dev.disk
        pc := .loop } :=
      ⟨zero_add _, h.rsize, fun j hj => absurd hj (Nat.not_lt_zero j), h.entered, h.left⟩
    refine .loop ⟨rfl, hhere, ?_⟩
    by_cases hmod : c.offset % bytsPerSec c.dev.disk = 0
    · refine .first ⟨?_, hmod⟩ hixlt ⟨hentry, rfl⟩ rfl ⟨fun hlt => ?_, hfill⟩
      · show c.offset - c.offset % bytsPerSec c.dev.disk = c.offset
        rw [hmod, Nat.sub_zero]
      · have hnil : (cs.take c.firstIx).drop c.firstIx = [] := drop_eq_nil_of_le (by rw [length_take]; omega)
        have hafter := h.after
        rw [hnil] at hafter
        have hok := hs.hop hlt
        rw [if_pos hmod, ← hafter] at hok
        exact hok
    · exact .head rfl hmod rfl ⟨hentry, rfl⟩ rfl

end Sound

theorem filled_look (hp : Placed c.dev c.fat) {sector : ℕ} (hsec : sector = s.look.curFatsector) (hbuff : s.toBuff c = false) :
    ∃ l, s.filled c sector 1 none = { s with look := l } ∧ Filled c.dev l ∧
      ∀ cl, Waiting c.dev c.fat cl s.look → Waiting c.dev c.fat cl l := by
  subst hsec
  have hblock : 1 * (c.dev.blockSize % 2 ^ 32) % 2 ^ 32 = c.dev.blockSize := by
    have hsz := hp.size_cases
    rw [hp.block_mod, hp.block, ← hp.sectorsize]
    omega
  refine ⟨{ s.look with buffer := c.dev.deliver s.look.curFatsector 1 0 s.look.buffer }, ?_, fun i hi => ?_, fun cl h => h⟩
  · rw [Read.filled, hbuff, if_neg Bool.false_ne_true, getD_none]
  · show c.dev.deliver s.look.curFatsector 1 0 s.look.buffer i = _
    rw [Device.deliver, hblock, if_pos ⟨Nat.zero_le _, by rwa [Nat.zero_add]⟩, Nat.sub_zero]

theorem filled_crit {sector num : ℕ} {junk : Option Mem} : (s.filled c sector num junk).pc = s.pc ∧
    (s.filled c sector num junk).entered = s.entered ∧ (s.filled c sector num junk).left = s.left := by
  unfold Read.filled
  split <;> exact ⟨rfl, rfl, rfl⟩

theorem filled_rsize (sector num : ℕ) (junk : Option Mem) : (s.filled c sector num junk).rsize = s.rsize := by
  unfold Read.filled
  split <;> rfl

theorem resume_fail (hreq : s.request = some (sector, num)) (junk : Mem) :
    ((s.filled c sector num (some junk)).resume c false).pc = .done .fail ∧
      ((s.filled c sector num (some junk)).resume c false).entered = s.entered ∧
      ((s.filled c sector num (some junk)).resume c false).left = s.left + 1 := by
  obtain ⟨h1, h2, h3⟩ := @filled_crit c s sector num (some junk)
  unfold Read.request at hreq
  unfold Read.resume
  rw [h1]
  cases hs : s.pc <;> simp [hs] at hreq <;>
    simp [Read.looked, lookupResume, Read.exit, h2, h3]

theorem loop_data (h : s.remainSize ≠ 0) :
    (s.loop c).pc = .dataWait ∧ (s.loop c).entered = s.entered ∧ (s.loop c).left = s.left := by
  unfold Read.loop
  rw [if_neg h]
  split_ifs <;> exact ⟨rfl, rfl, rfl⟩

namespace ReadInv

variable (hs : Sound c size cs) (hf : FileOn c size cs) (hsize : c.size ≠ 0)

theorem enter (hf : FileOn c size cs) (hs : Sound c size cs) (h : ReadInv c cs s) (hpc : s.pc = .enter) : ReadInv c cs { s with
    entered := s.entered + 1
    rsize := 0
    look := { s.look with entry := c.firstCluster }
    curOffset := 0
    pc := .locate } := by
  cases h with
  | start h =>
    have hentry : c.firstCluster = cs.getD 0 0 := by
      rw [hf.first]
      cases cs <;> rfl
    refine @ReadInv.locate _ _ _ 0 rfl (Nat.zero_le _) hentry (Nat.zero_mul _).symm (fun hne => h.filled (h.cached ▸ hne)) ?_
    obtain ⟨h1, h2⟩ := h.crit
    refine ⟨?_, ?_, rfl, ?_, h2⟩
    · rw [drop_zero]
      exact h.cached ▸ hs.hops
    · rw [drop_zero]
      exact congrArg (cachedAfter c.fat · _) h.cached
    · exact congrArg (· + 1) h1
  | locate hpc' | locateWait hpc' | nextWait hpc' | fail hpc' | finished hpc' => cases hpc.symm.trans hpc'
  | loop h => cases hpc.symm.trans h.pc
  | data h hremain hs => cases hpc.symm.trans (hs ▸ (loop_data hremain).1)

include hs hf hsize

theorem run (h : ReadInv c cs s) (hpc : s.pc = .locate ∨ s.pc = .loop) : ReadInv c cs (s.run c) := by
  cases h with
  | start h => simp [h.pc] at hpc
  | locate hpc' hi hentry hoff hfill h =>
    rw [Read.run, hpc']
    exact hs.locate_inv hf hsize hi hentry hoff hfill h
  | loop h =>
    rw [Read.run, h.pc]
    by_cases hremain : s.remainSize = 0
    · have hsum := h.here.sum
      rw [hremain, add_zero] at hsum
      refine .finished ?_ ?_ ?_ ?_
      all_goals
        dsimp only
        rw [Read.loop, if_pos hremain]
      · rfl
      · exact ⟨h.here.entered, congrArg (· + 1) h.here.left⟩
      · exact h.here.rsize.trans hsum
      · exact fun j hj => h.here.bytes j (h.here.rsize ▸ hj)
    · exact .data h hremain rfl
  | data h hremain hs => simp [hs, (loop_data hremain).1] at hpc
  | locateWait hpc' | nextWait hpc' | fail hpc' | finished hpc' => simp [hpc'] at hpc

theorem io (h : ReadInv c cs s) {sector num : ℕ} (hreq : s.request = some (sector, num)) :
    ReadInv c cs ((s.filled c sector num none).resume c true) := by
  have hp := hs.placed hf
  cases h with
  | start h => simp [Read.request, h.pc] at hreq
  | locate hpc' | fail hpc' | finished hpc' => simp [Read.request, hpc'] at hreq
  | loop h => simp [Read.request, h.pc] at hreq
  | locateWait hpc hi hwait hok hoff h =>
    rw [Read.request, hpc] at hreq
    obtain ⟨hsec, rfl⟩ := Prod.mk.inj (some.inj hreq)
    obtain ⟨l, heq, hfill, hkeep⟩ := filled_look hp hsec.symm (by rw [Read.toBuff, hpc])
    rw [heq, Read.resume, hpc]
    exact hs.located_inv hf hsize (s := { s with look := l }) hi hoff { h with } hok (lookupResume_spec hp hok (hkeep _ hwait) hfill)
  | data h hremain heq =>
    rw [heq] at hreq ⊢
    exact hs.resume_inv hf hsize h hremain hreq
  | nextWait hpc h hwait hok =>
    rw [Read.request, hpc] at hreq
    obtain ⟨hsec, rfl⟩ := Prod.mk.inj (some.inj hreq)
    obtain ⟨l, heq, hfill, hkeep⟩ := filled_look hp hsec.symm (by rw [Read.toBuff, hpc])
    have hend : AtEnd c cs { s with look := l } := { h with here := { h.here with }, at_sector := { h.at_sector with } }
    have hlt := h.lt hf
    rw [heq, Read.resume, hpc]
    exact hs.next_inv hf hsize hend hlt hok (lookupResume_spec hp hok (hkeep _ hwait) hfill)

/-- **What every step keeps.** -/
theorem step (h : ReadInv c cs s) {a : ReadAct} {s' : Read} (hcrit : s.request ≠ none → s.entered = 1 ∧ s.left = 0)
    (hstep : ReadStep c s a s') : ReadInv c cs s' := by
  cases hstep with
  | enter hpc => exact h.enter hf hs hpc
  | run hpc => exact h.run hs hf hsize hpc
  | io sector num junk hreq =>
    cases junk with
    | none => exact h.io hs hf hsize hreq
    | some junk =>
      obtain ⟨hpc, hentered, hleft⟩ := resume_fail (c := c) hreq junk
      obtain ⟨h1, h0⟩ := hcrit (by rw [hreq]; exact some_ne_none _)
      exact .fail hpc ⟨hentered.trans h1, hleft.trans (congrArg (· + 1) h0)⟩

end ReadInv

/-! ### The critical section -/

/-- How often it was entered and left. -/
def ReadPc.crit : ReadPc → ℕ × ℕ
  | .enter => (0, 0)
  | .done _ => (1, 1)
  | _ => (1, 0)

/-- The thread is in the critical section between its first step and its last. -/
def Held (s : Read) : Prop := (s.entered, s.left) = s.pc.crit

theorem Held.waiting (h : Held s) (hreq : s.request ≠ none) : (s.entered, s.left) = (1, 0) := by
  rw [Held] at h
  rw [h]
  unfold Read.request at hreq
  split at hreq
  · rename_i hpc
    rw [hpc]
    rfl
  · rename_i hpc
    rw [hpc]
    rfl
  · rename_i hpc
    rw [hpc]
    rfl
  · exact absurd rfl hreq

theorem looked_held {wait : ℕ → ReadPc} {found : Read → Read} (h : (s.entered, s.left) = (1, 0))
    (hwait : ∀ sector, (wait sector).crit = (1, 0)) (hfound : ∀ s : Read, (s.entered, s.left) = (1, 0) → Held (found s)) :
    Held (s.looked c r wait found) := by
  obtain ⟨h1, h2⟩ := Prod.mk.inj h
  have hexit : (s.entered, s.left + 1) = (1, 1) := by rw [h1, h2]
  unfold Read.looked
  split
  · exact h.trans (hwait _).symm
  · dsimp only
    split_ifs
    · exact hexit
    · exact hfound _ h
  · exact hexit

theorem advance_held (h : (s.entered, s.left) = (1, 0)) : Held (s.advance c) := by
  unfold Read.advance
  split_ifs
  · exact looked_held h (fun _ => rfl) fun _ h => h
  · exact h

/-- **The critical section is left once, on every way out**, whatever is read. -/
theorem Held.step {a : ReadAct} {s' : Read} (h : Held s) (hstep : ReadStep c s a s') : Held s' := by
  cases hstep with
  | enter hpc =>
    rw [Held, hpc] at h
    obtain ⟨h1, h2⟩ := Prod.mk.inj h
    exact Prod.ext (congrArg (· + 1) h1) h2
  | run hpc =>
    rcases hpc with hpc | hpc
    · rw [Held, hpc] at h
      rw [Read.run, hpc]
      show Held (s.locate c)
      unfold Read.locate
      split_ifs
      · exact looked_held h (fun _ => rfl) fun _ h => h
      · exact h
    · rw [Held, hpc] at h
      rw [Read.run, hpc]
      show Held (s.loop c)
      obtain ⟨h1, h2⟩ := Prod.mk.inj h
      unfold Read.loop
      split_ifs
      · exact Prod.ext h1 (congrArg (· + 1) h2)
      · exact h
      · exact h
      · exact h
  | io sector num junk hreq =>
    obtain ⟨hpc, h1, h2⟩ := @filled_crit c s sector num junk
    have hcrit := h.waiting (by rw [hreq]; exact some_ne_none _)
    rw [← h1, ← h2] at hcrit
    unfold Read.resume
    split
    · exact looked_held hcrit (fun _ => rfl) fun _ h => h
    · exact looked_held hcrit (fun _ => rfl) fun _ h => h
    · split_ifs
      · obtain ⟨h1, h2⟩ := Prod.mk.inj hcrit
        exact Prod.ext h1 (congrArg (· + 1) h2)
      · refine advance_held ?_
        unfold Read.counted Read.copied
        split_ifs <;> exact hcrit
    · rw [Held, h1, h2, hpc]
      exact h

theorem held (h : (readSystem c).Reach s) : Held s := by
  refine h.invariant (fun s h => ?_) fun _ _ _ _ hinv hstep => hinv.step hstep
  obtain ⟨h1, h2⟩ := h.crit
  rw [Held, h.pc, h1, h2]
  rfl

/-! ### Reads -/

/-- A read of no bytes never gets to the data. -/
def NoData (s : Read) : Prop :=
  match s.pc with
  | .enter => True
  | .loop => s.rsize = 0 ∧ s.remainSize = 0
  | .dataWait => False
  | .nextWait _ => False
  | _ => s.rsize = 0

theorem looked_noData (sz : s.rsize = 0) : NoData (s.looked c r .locateWait (Read.located c)) := by
  unfold Read.looked
  split
  · exact sz
  · dsimp only
    split_ifs
    · exact sz
    · exact sz
  · exact sz

theorem NoData.step (hsize : c.size = 0) {a : ReadAct} {s' : Read} (h : NoData s) (hstep : ReadStep c s a s') : NoData s' := by
  cases hstep with
  | enter hpc => exact rfl
  | run hpc =>
    rcases hpc with hpc | hpc
    · rw [NoData, hpc] at h
      rw [Read.run, hpc]
      show NoData (s.locate c)
      unfold Read.locate
      split_ifs
      · exact looked_noData h
      · exact ⟨h, hsize⟩
    · rw [NoData, hpc] at h
      rw [Read.run, hpc]
      show NoData (s.loop c)
      rw [Read.loop, if_pos h.2]
      exact h.1
  | io sector num junk hreq =>
    obtain ⟨hpc, -, -⟩ := @filled_crit c s sector num junk
    unfold Read.request at hreq
    unfold Read.resume
    rw [hpc]
    split at hreq
    · rename_i heq
      rw [NoData, heq] at h
      exact looked_noData ((filled_rsize sector num junk).trans h)
    · rename_i heq
      rw [NoData, heq] at h
      exact h.elim
    · rename_i heq
      rw [NoData, heq] at h
      exact h.elim
    · cases hreq

/-- The condition on a read. -/
def ReadMeets (c : ReadCall) (size : ℕ) (cs : List ℕ) : Prop := c.size = 0 ∨ Sound c size cs

/-- **A read returns the bytes of the file** if it is empty or sound, and leaves the critical section once. -/
theorem read_correct (hf : FileOn c size cs) (hm : ReadMeets c size cs) (h : (readSystem c).Reach s) :
    ReadCorrect c size cs s := by
  have hreleased : ∀ err, s.pc = .done err → s.entered = 1 ∧ s.left = 1 := by
    intro err hpc
    have hheld := held h
    rw [Held, hpc] at hheld
    exact Prod.mk.inj hheld
  refine ⟨fun hpc => ?_, hreleased⟩
  by_cases hsize : c.size = 0
  · have hno : NoData s := by
      refine h.invariant (fun s h => ?_) fun _ _ _ _ hinv hstep => hinv.step hsize hstep
      rw [NoData, h.pc]
      trivial
    rw [NoData, hpc] at hno
    have hzero : s.rsize = 0 := hno
    rw [hzero, hsize, zero_min]
    exact ⟨rfl, fun j hj => absurd hj (Nat.not_lt_zero j)⟩
  · have hs := hm.resolve_left hsize
    have hinv : ReadInv c cs s := by
      refine h.invariant (fun _ h => .start h) fun s _ s' hr hinv hstep => hinv.step hs hf hsize (fun hreq => ?_) hstep
      exact Prod.mk.inj ((held hr).waiting hreq)
    have hinside := hs.inside
    cases hinv with
    | finished _ _ hsz hbytes => exact ⟨by omega, hbytes⟩
    | start h => cases hpc.symm.trans h.pc
    | locate hpc' | locateWait hpc' | nextWait hpc' | fail hpc' => cases hpc.symm.trans hpc'
    | loop h => cases hpc.symm.trans h.pc
    | data h hremain heq => cases hpc.symm.trans (heq ▸ (loop_data hremain).1)

/-! ### Two reads -/

/-- The runs begin anywhere in the memory. -/
def beforeRead : Read where
  pc := .enter
  entered := 0
  left := 0
  look := ⟨fun _ => 0, 0, 0, 0⟩
  lastSector := 0
  curSector := 0
  curOffset := 0
  curSize := 0
  curRunSize := 0
  curRunSector := 0
  remainSize := 0
  buff := fun _ => 0
  rsize := 0

theorem beforeRead_start (offset size : ℕ) : (readSystem (smallRead offset size)).Reach beforeRead :=
  .start ⟨rfl, ⟨rfl, rfl⟩, rfl, fun h => absurd rfl h⟩

theorem read_correct_part : ∃ s : Read, s.pc = .done .none ∧ s.rsize = 4 ∧ ReadCorrect (smallRead 512 4) 600 [3] s := by
  have hix : (smallRead 512 4).firstIx = 0 ∧ (smallRead 512 4).lastIx = 0 := by decide +kernel
  have hsound : Sound (smallRead 512 4) 600 [3] := by
    refine ⟨⟨?_, ?_, .inr rfl⟩, by decide, .inl ?_, ?_, ?_, ?_, ?_, ?_⟩
    · decide +kernel
    · decide +kernel
    · decide +kernel
    · rw [hix.1]
      trivial
    · rw [hix.1, hix.2]
      exact fun h => absurd h (lt_irrefl 0)
    · rw [hix.1, hix.2]
      exact fun h => absurd h (lt_irrefl 0)
    · rw [hix.2]
      exact fun i _ h => absurd h (Nat.not_lt_zero i)
    · rw [hix.2]
      intro i _ hi
      rw [Nat.le_zero.mp hi]
      decide +kernel
  have henter := (beforeRead_start 512 4).step (.enter rfl)
  have hlocate := henter.step (.run (.inl rfl))
  have hloop := hlocate.step (.run (.inr (by decide +kernel)))
  have hdata := hloop.step (.io 1059 1 none (by decide +kernel) (by decide +kernel))
  have hdone := hdata.step (.run (.inr (by decide +kernel)))
  exact ⟨_, by decide +kernel, by decide +kernel, read_correct (smallRead_file (by decide) (by decide)) (.inr hsound) hdone⟩

/-- **One byte, the second of the file**: the last byte of the sector is read. -/
theorem read_breaks : ¬ ∀ (c : ReadCall) (size : ℕ) (cs : List ℕ) (s : Read), FileOn c size cs → (readSystem c).Reach s →
    ReadCorrect c size cs s := by
  intro hall
  have henter := (beforeRead_start 1 1).step (.enter rfl)
  have hlocate := henter.step (.run (.inl rfl))
  have hloop := hlocate.step (.run (.inr (by decide +kernel)))
  have hdata := hloop.step (.io 1058 1 none (by decide +kernel) (by decide +kernel))
  have hdone := hdata.step (.run (.inr (by decide +kernel)))
  obtain ⟨-, hbytes⟩ := (hall _ 600 [3] _ (smallRead_file (by decide) (by decide)) hdone).read (by decide +kernel)
  exact absurd (hbytes 0 (by decide +kernel)) (by decide +kernel)

end Fat
end Vsf
