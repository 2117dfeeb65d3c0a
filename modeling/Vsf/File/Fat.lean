/-
# FAT volumes: the geometry and the allocation table

`vsffat_parse_dbr` reads the geometry from the boot sector, and `vsffat_get_FATentry` follows the
clusters: a small thread that reads the one or two sectors of an entry. Where the sector is there
already, what is shifted out of the entry is taken from the number of the sector
(`Fat.Lookup.first`), so a lookup is right if the two agree, or the sector has to be read.
-/
import Mathlib
import Vsf.Lib.ByteMem
import Vsf.Lib.Chain

namespace Vsf

open ByteMem

/-- `enum vsffat_type_t`. -/
inductive FatType
  | none
  | fat12
  | fat16
  | fat32
  | exfat
deriving DecidableEq

/-- `vsffat_FAT_bitsize`. -/
def FatType.bitsize : FatType → ℕ
  | .none => 0
  | .fat12 => 12
  | .fat16 => 16
  | .fat32 => 32
  | .exfat => 32

/-! ### What the boot sector says -/

namespace Bpb

variable (m : Mem)

def bytsPerSec : ℕ := load16 m 11
def secPerClus : ℕ := (m 13).toNat
def rsvdSecCnt : ℕ := load16 m 14
def numFATs : ℕ := (m 16).toNat
def rootEntCnt : ℕ := load16 m 17
def totSec16 : ℕ := load16 m 19
def fatSz16 : ℕ := load16 m 22
def totSec32 : ℕ := load32 m 32
def fatSz32 : ℕ := load32 m 36
def rootClus : ℕ := load32 m 44
def fsInfo : ℕ := load16 m 48

def totSec : ℕ := if totSec16 m = 0 then totSec32 m else totSec16 m

def fatSz : ℕ := if fatSz16 m = 0 then fatSz32 m else fatSz16 m

/-- The sectors of the root directory of FAT12 and FAT16. -/
def rootDirSectors : ℕ := (rootEntCnt m * 32 + (bytsPerSec m - 1)) / bytsPerSec m

def firstRootSector : ℕ := rsvdSecCnt m + numFATs m * fatSz m

def firstDataSector : ℕ := firstRootSector m + rootDirSectors m

def countOfClusters : ℕ := (totSec m - firstDataSector m) / secPerClus m

/-- The type of a volume is its number of clusters. -/
def fatType : FatType :=
  if countOfClusters m < 4085 then .fat12 else if countOfClusters m < 65525 then .fat16 else .fat32

theorem fatType_cases : fatType m = .fat12 ∨ fatType m = .fat16 ∨ fatType m = .fat32 := by
  unfold fatType
  split_ifs <;> simp

/-- The bytes of a cluster. -/
def clusterBytes : ℕ := secPerClus m * bytsPerSec m

/-- The first sector of a cluster. -/
def sectorOf (c : ℕ) : ℕ := firstDataSector m + (c - 2) * secPerClus m

/-- The bits of a cluster's entry in the first table. -/
def rawEntry (c : ℕ) : ℕ :=
  let bit := c * (fatType m).bitsize
  load32 m (rsvdSecCnt m * bytsPerSec m + bit / 8) / 2 ^ (bit % 8) % 2 ^ (fatType m).bitsize

/-- Of 32 bits the high 4 are not used. -/
def fatEntry (c : ℕ) : ℕ := rawEntry m c % 2 ^ 28

/-- The largest entry. -/
def maxEntry : ℕ := (2 ^ (fatType m).bitsize - 1) % 2 ^ 28

/-- The cluster behind a cluster; the last 8 entries end a chain. -/
def next (c : ℕ) : Option ℕ := if fatEntry m c ≤ maxEntry m - 8 then some (fatEntry m c) else none

/-- A boot sector as the specification has it. -/
structure Valid : Prop where
  sec_size : bytsPerSec m ∈ [512, 1024, 2048, 4096]
  clus_size : ∃ k ≤ 7, secPerClus m = 2 ^ k
  reserved : rsvdSecCnt m ≠ 0
  tables : numFATs m ≠ 0 ∧ fatSz m ≠ 0
  sectors : firstDataSector m ≤ totSec m
  room : (countOfClusters m + 2) * (fatType m).bitsize ≤ fatSz m * (bytsPerSec m * 8)
  count : countOfClusters m + 2 ≤ maxEntry m - 8
  root : fatType m = .fat32 ↔ rootEntCnt m = 0
  fat32 : fatType m = .fat32 → fatSz16 m = 0 ∧ totSec16 m = 0 ∧ 2 ≤ rootClus m
  magic : m 510 = 0x55 ∧ m 511 = 0xAA
  jmp : m 0 ≠ 0

/-- The clusters of a chain, the first one at `p`. -/
structure Chain (p : Option ℕ) (cs : List ℕ) : Prop where
  chain : Linked.Chain (next m) p cs
  range : ∀ c ∈ cs, 2 ≤ c ∧ c < countOfClusters m + 2

end Bpb

/-! ### The geometry of a mounted volume -/

/-- `msb`, as a `uint8_t`. -/
def msb (a : ℕ) : ℕ := if a = 0 then 255 else a.log2

/-- `struct vsffat_t`, what `vsffat_parse_dbr` leaves in it. -/
structure Fat where
  type : FatType
  sectorsizeBits : ℕ
  clustersizeBits : ℕ
  fatnum : ℕ
  reservedSize : ℕ
  rootentry : ℕ
  fsinfo : ℕ
  fatsize : ℕ
  rootCluster : ℕ
  clusternum : ℕ
  fatbase : ℕ
  database : ℕ
  rootbase : ℕ
  rootsize : ℕ
deriving DecidableEq

namespace Fat

open Bpb

/-- `vsffat_parse_dbr`; `fsinfo` stays but for FAT32. -/
def parseDbrFat (m : Mem) (blockSize fsinfo : ℕ) : Option Fat :=
  let sectorsizeBits := msb (bytsPerSec m)
  let clustersizeBits := msb (secPerClus m)
  if (bytsPerSec m ≠ blockSize ∨
      (bytsPerSec m ≠ 512 ∧ bytsPerSec m ≠ 1024 ∧ bytsPerSec m ≠ 2048 ∧ bytsPerSec m ≠ 4096)) ∨
      (secPerClus m = 0 ∨ clustersizeBits = 0) ∨
      rsvdSecCnt m = 0 ∨ numFATs m = 0 ∨ totSec m = 0 ∨ fatSz m = 0 then none
  else
    let rootsize := if rootEntCnt m ≠ 0 then (rootEntCnt m / 2 ^ 5 + bytsPerSec m - 1) / bytsPerSec m else 0
    let rootbase := (rsvdSecCnt m + numFATs m * fatSz m) % 2 ^ 32
    let database := (rootbase + rootsize) % 2 ^ 32
    let clusternum := (totSec m + 2 ^ 32 - rsvdSecCnt m) % 2 ^ 32 / 2 ^ clustersizeBits
    if rootEntCnt m = 0 then
      if fatSz16 m ≠ 0 ∨ totSec16 m ≠ 0 ∨ rootClus m < 2 then none
      else some {
        type := .fat32
        sectorsizeBits, clustersizeBits, rootsize, rootbase, database
        fatnum := numFATs m
        reservedSize := rsvdSecCnt m
        rootentry := 0
        fsinfo := fsInfo m
        fatsize := fatSz m
        rootCluster := rootClus m
        clusternum := (rootClus m + clusternum) % 2 ^ 32
        fatbase := rsvdSecCnt m }
    else some {
      type := if clusternum < 4085 then .fat12 else .fat16
      sectorsizeBits, clustersizeBits, rootsize, rootbase, database, fsinfo
      fatnum := numFATs m
      reservedSize := rsvdSecCnt m
      rootentry := rootEntCnt m
      fatsize := fatSz m
      rootCluster := 0
      clusternum := clusternum + 2
      fatbase := rsvdSecCnt m }

/-- `vsffat_parse_dbr` of exFAT. -/
def parseDbrExfat (m : Mem) (fsinfo : ℕ) : Option Fat :=
  if (m 108).toNat < 9 ∨ load32 m 96 < 2 then none
  else some {
    type := .exfat
    sectorsizeBits := (m 108).toNat
    clustersizeBits := (m 109).toNat
    reservedSize := 0
    fatnum := (m 110).toNat
    fatsize := load32 m 84
    rootentry := 0
    rootsize := 0
    fsinfo := fsinfo
    fatbase := load32 m 80
    rootbase := load32 m 88
    database := load32 m 88
    rootCluster := load32 m 96
    clusternum := (load32 m 92 + 2) % 2 ^ 32 }

/-- `vsffat_parse_dbr`: the first 53 bytes of the sector are 0 for exFAT. -/
def parseDbr (m : Mem) (blockSize fsinfo : ℕ) : Option Fat :=
  if m 510 ≠ 0x55 ∨ m 511 ≠ 0xAA then none
  else if (List.range 53).any fun i => m i ≠ 0 then parseDbrFat m blockSize fsinfo
  else parseDbrExfat m fsinfo

variable (fat : Fat)

/-- The bytes of a sector. -/
def sectorsize : ℕ := 2 ^ fat.sectorsizeBits

def fatbit : ℕ := fat.type.bitsize

/-- `vsffat_clus2sec`. -/
def clus2sec (cluster : ℕ) : ℕ :=
  let base := if fat.rootCluster ≠ 0 then fat.rootCluster else 2
  (fat.database + (cluster + 2 ^ 32 - base) % 2 ^ 32 * 2 ^ fat.clustersizeBits) % 2 ^ 32

/-- The largest entry. -/
def mask : ℕ := (2 ^ fat.fatbit - 1) % 2 ^ 28

/-- What an entry is compared as. -/
def masked (cluster : ℕ) : ℕ := cluster % (if fat.fatbit = 32 then 2 ^ 28 else 2 ^ fat.fatbit)

/-- `vsffat_FATentry_valid`. -/
def entryValid (cluster : ℕ) : Bool := 2 ≤ fat.masked cluster && fat.masked cluster ≤ fat.mask

/-- `vsffat_FATentry_EOF`. -/
def entryEOF (cluster : ℕ) : Bool := fat.mask - 8 ≤ fat.masked cluster && fat.masked cluster ≤ fat.mask

/-! ### The sectors of the device -/

/-- The device, and what `vsf_malfs_read` asks of it. -/
structure Device where
  disk : Mem
  blockSize : ℕ
  blockNum : ℕ

/-- `VSF_MALFS_CFG_BUFCNT`. -/
def bufcnt : ℕ := 8

/-- What `vsf_malfs_read` accepts; `bs` and `bn` are 32 bits wide. -/
def Device.accepts (d : Device) (sector num : ℕ) : Prop :=
  ¬ (d.blockNum % 2 ^ 32 ≤ sector ∨ d.blockNum % 2 ^ 32 ≤ (sector + num) % 2 ^ 32) ∧ num ≤ bufcnt

instance (d : Device) (sector num : ℕ) : Decidable (d.accepts sector num) := inferInstanceAs (Decidable (_ ∧ _))

/-- The byte `i` of what `vsf_malfs_read` reads from a sector on. -/
def Device.byte (d : Device) (sector i : ℕ) : UInt8 := d.disk (sector * (d.blockSize % 2 ^ 32) % 2 ^ 32 + i)

/-- What was read stands at `dst`. -/
def Device.deliver (d : Device) (sector num dst : ℕ) (m : Mem) : Mem := fun x =>
  if dst ≤ x ∧ x < dst + num * (d.blockSize % 2 ^ 32) % 2 ^ 32 then d.byte sector (x - dst) else m x

/-! ### The allocation table -/

/-- What `vsffat_get_FATentry` works on: the sector buffer, its sector, the bits read, and the cluster,
which the entry replaces. -/
structure Lookup where
  buffer : Mem
  curFatsector : ℕ
  readbit : ℕ
  entry : ℕ

/-- It waits for a sector, or is over. -/
inductive LookupOut
  | wait (sector : ℕ)
  | done
  | fail

/-- `startbit` once it is the sector. -/
def fatsector (startbit readbit : ℕ) : ℕ :=
  (fat.fatbase + startbit / 2 ^ (fat.sectorsizeBits + 3) + if readbit ≠ 0 then 1 else 0) % 2 ^ 32

/-- `startbit` at first. -/
def startbit (cluster : ℕ) : ℕ := cluster * fat.fatbit % 2 ^ 32

/-- `startbit_sec`. -/
def startbitSec (cluster : ℕ) : ℕ := fat.startbit cluster % 2 ^ (fat.sectorsizeBits + 3)

namespace Lookup

/-- The other part of an entry that is in two sectors. -/
def rest (l : Lookup) : Lookup × LookupOut :=
  ({ l with entry := (l.entry ||| load32 l.buffer 0 * 2 ^ l.readbit % 2 ^ 32) % 2 ^ fat.fatbit }, .done)

/-- The loop comes again. -/
def again (l : Lookup) (startbit : ℕ) : Lookup × LookupOut :=
  let sector := fat.fatsector startbit l.readbit
  if l.curFatsector ≠ sector then ({ l with curFatsector := sector }, .wait sector) else l.rest fat

/-- The first sector is there; `startbit` is the entry's bit if it was read, else the sector. A shift by 32
gives 0. -/
def first (l : Lookup) (startbit startbitSec : ℕ) : Lookup × LookupOut :=
  let readbit := min fat.fatbit (2 ^ (fat.sectorsizeBits + 3) - startbitSec)
  let entry := load32 l.buffer (startbitSec / 8) / 2 ^ (startbit % 8) % 2 ^ readbit
  let l := { l with readbit := readbit, entry := entry }
  if readbit < fat.fatbit then l.again fat startbit else (l, .done)

end Lookup

/-- `vsffat_get_FATentry`, up to the first wait. -/
def lookupStart (l : Lookup) : Lookup × LookupOut :=
  if l.entry < 2 then (l, .fail)
  else
    let sector := fat.fatsector (fat.startbit l.entry) 0
    let startbitSec := fat.startbitSec l.entry
    let l := { l with readbit := 0 }
    if l.curFatsector ≠ sector then ({ l with curFatsector := sector }, .wait sector) else l.first fat sector startbitSec

/-- `vsffat_get_FATentry`, entered again, with new variables and what is in place of the cluster. -/
def lookupResume (l : Lookup) (ok : Bool) : Lookup × LookupOut :=
  if ok = false then ({ l with curFatsector := 0 }, .fail)
  else if l.readbit ≠ 0 then l.rest fat
  else l.first fat (fat.startbit l.entry) (fat.startbitSec l.entry)

/-! ### Volumes that are read as they are -/

variable {fat} {d : Device} {c : ℕ}

/-- The geometry is the one of the boot sector. -/
structure Placed (d : Device) (fat : Fat) : Prop where
  sec_size : bytsPerSec d.disk ∈ [512, 1024, 2048, 4096]
  sectorsize : fat.sectorsize = bytsPerSec d.disk
  clus_size : ∃ k ≤ 7, secPerClus d.disk = 2 ^ k
  clustersize : 2 ^ fat.clustersizeBits = secPerClus d.disk
  block : d.blockSize = bytsPerSec d.disk
  fatbase : fat.fatbase = rsvdSecCnt d.disk
  type : fat.type = fatType d.disk
  database : fat.database = firstDataSector d.disk
  base : fat.rootCluster = 0 ∨ fat.rootCluster = 2

/-- The volume was mounted, and what the mount computes is so. -/
def Agrees (d : Device) (fat : Fat) : Prop :=
  fat.type = fatType d.disk ∧ fat.database = firstDataSector d.disk ∧ (fat.rootCluster = 0 ∨ fat.rootCluster = 2)

theorem two_pow_msb {k : ℕ} : 2 ^ msb (2 ^ k) = 2 ^ k := by
  rw [msb, if_neg (Nat.two_pow_pos k).ne', Nat.log2_two_pow]

theorem parseDbrFat_fields {m : Mem} {blockSize fsinfo : ℕ} (h : parseDbrFat m blockSize fsinfo = some fat) :
    bytsPerSec m = blockSize ∧ fat.sectorsizeBits = msb (bytsPerSec m) ∧ fat.clustersizeBits = msb (secPerClus m) ∧
      fat.fatbase = rsvdSecCnt m := by
  unfold parseDbrFat at h
  dsimp only at h
  by_cases hblock : bytsPerSec m = blockSize
  · split_ifs at h
    all_goals
      obtain rfl := Option.some.inj h
      exact ⟨hblock, rfl, rfl, rfl⟩
  · rw [if_pos (.inl (.inl hblock))] at h
    cases h

theorem placed_of_mount {fsinfo : ℕ} (hv : Valid d.disk) (h : parseDbr d.disk d.blockSize fsinfo = some fat)
    (ha : Agrees d fat) : Placed d fat := by
  have hfat : parseDbrFat d.disk d.blockSize fsinfo = some fat := by
    rw [parseDbr, if_neg (by simp [hv.magic]), if_pos (List.any_eq_true.mpr ⟨0, by simp, by simpa using hv.jmp⟩)] at h
    exact h
  obtain ⟨hblock, hsec, hclus, hbase⟩ := parseDbrFat_fields hfat
  obtain ⟨k, -, hk⟩ := hv.clus_size
  refine ⟨hv.sec_size, ?_, hv.clus_size, ?_, hblock.symm, hbase, ha.1, ha.2.1, ha.2.2⟩
  · obtain ⟨j, hj⟩ : ∃ j, bytsPerSec d.disk = 2 ^ j := by
      have hsize := hv.sec_size
      simp only [List.mem_cons, List.not_mem_nil, or_false] at hsize
      rcases hsize with h | h | h | h
      · exact ⟨9, h⟩
      · exact ⟨10, h⟩
      · exact ⟨11, h⟩
      · exact ⟨12, h⟩
    rw [Fat.sectorsize, hsec, hj, two_pow_msb]
  · rw [hclus, hk, two_pow_msb]

namespace Placed

variable (h : Placed d fat)

include h

theorem size_cases : fat.sectorsize = 512 ∨ fat.sectorsize = 1024 ∨ fat.sectorsize = 2048 ∨ fat.sectorsize = 4096 := by
  have := h.sec_size
  rw [← h.sectorsize] at this
  simpa using this

theorem clus_le : 1 ≤ secPerClus d.disk ∧ secPerClus d.disk ≤ 128 := by
  obtain ⟨k, hk, hpow⟩ := h.clus_size
  rw [hpow]
  exact ⟨Nat.one_le_two_pow, Nat.pow_le_pow_right (by decide) hk⟩

/-- A cluster below 4 GiB is where the specification puts it. -/
theorem clus2sec_eq (h2 : 2 ≤ c) (hlow : sectorOf d.disk c < 2 ^ 32) : fat.clus2sec c = sectorOf d.disk c := by
  have hbase : (if fat.rootCluster ≠ 0 then fat.rootCluster else 2) = 2 := by
    rcases h.base with hb | hb <;> simp [hb]
  have hc : c - 2 ≤ (c - 2) * secPerClus d.disk := Nat.le_mul_of_pos_right _ h.clus_le.1
  unfold sectorOf at hlow
  have hmod : (c + 2 ^ 32 - 2) % 2 ^ 32 = c - 2 := by omega
  unfold clus2sec
  dsimp only
  rw [hbase, hmod, h.clustersize, h.database]
  exact Nat.mod_eq_of_lt hlow

theorem masked_rawEntry : fat.masked (rawEntry d.disk c) = fatEntry d.disk c := by
  have htype := h.type
  have hlt : rawEntry d.disk c < 2 ^ (fatType d.disk).bitsize := Nat.mod_lt _ (Nat.two_pow_pos _)
  unfold masked fatEntry Fat.fatbit
  rw [htype]
  rcases fatType_cases d.disk with ht | ht | ht
  all_goals rw [ht] at hlt ⊢
  · have h12 : rawEntry d.disk c < 2 ^ 12 := hlt
    show rawEntry d.disk c % 2 ^ 12 = rawEntry d.disk c % 2 ^ 28
    omega
  · have h16 : rawEntry d.disk c < 2 ^ 16 := hlt
    show rawEntry d.disk c % 2 ^ 16 = rawEntry d.disk c % 2 ^ 28
    omega
  · rfl

theorem mask_eq : fat.mask = maxEntry d.disk := by
  unfold mask maxEntry Fat.fatbit
  rw [h.type]

theorem entry_next {c' : ℕ} (hnext : next d.disk c = some c') (h2 : 2 ≤ c') :
    fat.entryValid (rawEntry d.disk c) = true ∧ rawEntry d.disk c % 2 ^ 28 = c' := by
  unfold next at hnext
  split_ifs at hnext with hle
  have hc' := Option.some.inj hnext
  refine ⟨?_, hc'⟩
  simp only [entryValid, h.masked_rawEntry, h.mask_eq, hc', Bool.and_eq_true, decide_eq_true_eq]
  omega

omit h in
theorem sectorbit : 2 ^ (fat.sectorsizeBits + 3) = 8 * fat.sectorsize := by
  rw [Fat.sectorsize, pow_add]
  omega

theorem block_mod : d.blockSize % 2 ^ 32 = fat.sectorsize := by
  have := h.size_cases
  rw [h.block, ← h.sectorsize]
  omega

theorem byte {sector i : ℕ} (hlow : (sector + 1) * fat.sectorsize ≤ 2 ^ 32) :
    d.byte sector i = d.disk (sector * fat.sectorsize + i) := by
  have := h.size_cases
  rw [Device.byte, h.block_mod, Nat.mod_eq_of_lt]
  rw [add_mul] at hlow
  omega

end Placed

/-! ### Lookups -/

/-- The first sector with bits of an entry, and the last. -/
def firstSec (fat : Fat) (c : ℕ) : ℕ := fat.fatbase + c * fat.fatbit / (8 * fat.sectorsize)

def lastSec (fat : Fat) (c : ℕ) : ℕ := fat.fatbase + (c * fat.fatbit + fat.fatbit - 1) / (8 * fat.sectorsize)

/-- The table is below 4 GiB and 2^32 bits, and unread sectors' numbers do no harm. -/
structure LookupOk (fat : Fat) (cached c : ℕ) : Prop where
  small : c * fat.fatbit < 2 ^ 32
  low : (fat.lastSec c + 1) * fat.sectorsize ≤ 2 ^ 32
  shift : cached = fat.firstSec c → fat.firstSec c % 8 = c * fat.fatbit % 8
  second : cached = fat.firstSec c → fat.firstSec c ≠ fat.lastSec c →
    fat.firstSec c / (8 * fat.sectorsize) = c * fat.fatbit / (8 * fat.sectorsize)

/-- What was read last is in the buffer. -/
def Filled (d : Device) (l : Lookup) : Prop := ∀ i < d.blockSize, l.buffer i = d.byte l.curFatsector i

/-- A lookup that waits: for the first sector, or for the last. -/
def Waiting (d : Device) (fat : Fat) (c : ℕ) (l : Lookup) : Prop :=
  l.readbit = 0 ∧ l.entry = c ∧ l.curFatsector = fat.firstSec c ∨
    fat.firstSec c ≠ fat.lastSec c ∧ l.readbit = 8 * fat.sectorsize - c * fat.fatbit % (8 * fat.sectorsize) ∧
      l.entry = rawEntry d.disk c % 2 ^ l.readbit ∧ l.curFatsector = fat.lastSec c

/-- How a lookup goes on. -/
def Looked (d : Device) (fat : Fat) (c : ℕ) : Lookup × LookupOut → Prop
  | (l, .wait sector) => Waiting d fat c l ∧ sector = l.curFatsector
  | (l, .done) => l.entry = rawEntry d.disk c ∧ Filled d l ∧ l.curFatsector = fat.lastSec c
  | (_, .fail) => False

theorem firstSec_le : fat.firstSec c ≤ fat.lastSec c := by
  unfold firstSec lastSec
  rcases eq_zero_or_pos fat.fatbit with h | h
  · rw [h]
    simp
  · exact Nat.add_le_add_left (Nat.div_le_div_right (by omega)) _

theorem fatbit_cases : fat.fatbit = 0 ∨ fat.fatbit = 12 ∨ fat.fatbit = 16 ∨ fat.fatbit = 32 := by
  unfold Fat.fatbit
  cases fat.type <;> simp [FatType.bitsize]

variable {b n w cached : ℕ}

theorem word_inside (hb : n ∣ b) (hn : n ∣ w) (hw : 0 < w) : b % w + n ≤ w := by
  have hlt := Nat.mod_lt b hw
  have hroom : n ∣ w - b % w := Nat.dvd_sub hn ((Nat.dvd_mod_iff hn).mpr hb)
  have hle := Nat.le_of_dvd (by omega) hroom
  omega

/-- Twelve bits that leave their block have 4 or 8 of them in it. -/
theorem twelve_leaves (hb : b % 4 = 0) (hw : w % 8 = 0) (hpos : 0 < w) (hout : w < b % w + 12) :
    b % w = w - 4 ∧ b % 8 = 4 ∨ b % w = w - 8 ∧ b % 8 = 0 := by
  have hlt := Nat.mod_lt b hpos
  have hmod : b % w % 8 = b % 8 := Nat.mod_mod_of_dvd b (Nat.dvd_of_mod_eq_zero hw)
  omega

theorem last_block (hn : 0 < n) (hnw : n ≤ w) :
    (b + n - 1) / w = if b % w + n ≤ w then b / w else b / w + 1 := by
  have hlt := Nat.mod_lt b (hn.trans_le hnw)
  have hsplit : b + n - 1 = w * (b / w) + (b % w + n - 1) := by
    have hb := Nat.div_add_mod b w
    omega
  rw [hsplit, Nat.mul_add_div (hn.trans_le hnw)]
  split_ifs with hin
  · have hzero : (b % w + n - 1) / w = 0 := Nat.div_eq_of_lt (by omega)
    rw [hzero, Nat.add_zero]
  · have hone : (b % w + n - 1) / w = 1 := (Nat.div_eq_iff (hn.trans_le hnw)).mpr (by omega)
    rw [hone]

namespace Placed

theorem lastSec_eq (h : Placed d fat) : fat.lastSec c =
    if c * fat.fatbit % (8 * fat.sectorsize) + fat.fatbit ≤ 8 * fat.sectorsize then fat.firstSec c else fat.firstSec c + 1 := by
  have hsize := h.size_cases
  unfold firstSec lastSec
  rcases eq_zero_or_pos fat.fatbit with hzero | hpos
  · rw [hzero]
    simp
  · have hbit := @fatbit_cases fat
    rw [last_block hpos (by omega)]
    split_ifs <;> rfl

/-- Only an entry of 12 bits is in two sectors, with 4 or 8 of them in the first. -/
theorem cross (h : Placed d fat) (hne : fat.firstSec c ≠ fat.lastSec c) : fat.fatbit = 12 ∧
    (c * fat.fatbit % (8 * fat.sectorsize) = 8 * fat.sectorsize - 4 ∧ c * fat.fatbit % 8 = 4 ∨
      c * fat.fatbit % (8 * fat.sectorsize) = 8 * fat.sectorsize - 8 ∧ c * fat.fatbit % 8 = 0) ∧
    fat.lastSec c = fat.firstSec c + 1 := by
  have hsize := h.size_cases
  rw [h.lastSec_eq] at hne ⊢
  split_ifs at hne with hin
  · exact absurd rfl hne
  · rw [if_neg hin]
    have hpos : 0 < 8 * fat.sectorsize := by omega
    rcases @fatbit_cases fat with hb | hb | hb | hb <;> rw [hb] at hin ⊢
    · have hlt := Nat.mod_lt (c * 0) hpos
      omega
    · exact ⟨rfl, twelve_leaves (by omega) (Nat.mul_mod_right 8 _) hpos (by omega), rfl⟩
    · exact absurd (word_inside (dvd_mul_left 16 c) (by omega) hpos) hin
    · exact absurd (word_inside (dvd_mul_left 32 c) (by omega) hpos) hin

theorem inside (h : Placed d fat) (heq : fat.firstSec c = fat.lastSec c) :
    c * fat.fatbit % (8 * fat.sectorsize) + fat.fatbit ≤ 8 * fat.sectorsize := by
  rw [h.lastSec_eq] at heq
  split_ifs at heq with hin
  · exact hin
  · omega

theorem bitsize (h : Placed d fat) : (fatType d.disk).bitsize = fat.fatbit := by
  rw [← h.type]
  rfl

theorem rawEntry_eq (h : Placed d fat) : rawEntry d.disk c =
    load32 d.disk (fat.firstSec c * fat.sectorsize + c * fat.fatbit % (8 * fat.sectorsize) / 8) /
      2 ^ (c * fat.fatbit % 8) % 2 ^ fat.fatbit := by
  unfold rawEntry firstSec
  dsimp only
  rw [h.bitsize, h.fatbase, h.sectorsize]
  have hdiv : c * fat.fatbit / 8 = c * fat.fatbit / (8 * bytsPerSec d.disk) * bytsPerSec d.disk +
      c * fat.fatbit % (8 * bytsPerSec d.disk) / 8 := by
    conv_lhs => rw [← Nat.div_add_mod (c * fat.fatbit) (8 * bytsPerSec d.disk), mul_assoc]
    rw [Nat.mul_add_div (by decide), mul_comm (bytsPerSec d.disk)]
  rw [hdiv, ← add_assoc, ← add_mul]

theorem rawEntry_first (h : Placed d fat) {l : Lookup} {n : ℕ} (hfill : Filled d l) (hsec : l.curFatsector = fat.firstSec c)
    (hlow : (fat.firstSec c + 1) * fat.sectorsize ≤ 2 ^ 32)
    (hn : c * fat.fatbit % (8 * fat.sectorsize) + n ≤ 8 * fat.sectorsize) (hfat : n ≤ fat.fatbit) :
    load32 l.buffer (c * fat.fatbit % (8 * fat.sectorsize) / 8) / 2 ^ (c * fat.fatbit % 8) % 2 ^ n =
      rawEntry d.disk c % 2 ^ n := by
  rw [h.rawEntry_eq, Nat.mod_mod_of_dvd _ (pow_dvd_pow 2 hfat)]
  refine load32_bits fun k _ hk => ?_
  have hmod : c * fat.fatbit % (8 * fat.sectorsize) % 8 = c * fat.fatbit % 8 := Nat.mod_mul_right_mod _ 8 _
  rw [hfill _ (by rw [h.block, ← h.sectorsize]; omega), hsec, h.byte hlow, add_assoc]

theorem rawEntry_last (h : Placed d fat) {l : Lookup} (hne : fat.firstSec c ≠ fat.lastSec c) (hfill : Filled d l)
    (hsec : l.curFatsector = fat.lastSec c) (hlow : (fat.lastSec c + 1) * fat.sectorsize ≤ 2 ^ 32) {r : ℕ}
    (hr : r = 8 * fat.sectorsize - c * fat.fatbit % (8 * fat.sectorsize)) :
    load32 l.buffer 0 % 2 ^ (fat.fatbit - r) = rawEntry d.disk c / 2 ^ r := by
  obtain ⟨hbit, hcase, hnext⟩ := h.cross hne
  have hsize := h.size_cases
  have hr12 : r ≤ fat.fatbit := by omega
  have hs : c * fat.fatbit % 8 + r = 8 := by omega
  have hbyte : c * fat.fatbit % (8 * fat.sectorsize) / 8 = fat.sectorsize - 1 := by omega
  have hsplit : 2 ^ fat.fatbit = 2 ^ r * 2 ^ (fat.fatbit - r) := by
    rw [← pow_add, Nat.add_sub_cancel' hr12]
  rw [h.rawEntry_eq, hsplit, Nat.mod_mul_right_div_self, Nat.div_div_eq_div_mul, ← pow_add, hs, hbyte]
  have hone : load32 l.buffer 0 = load32 l.buffer 0 / 2 ^ 0 := by simp
  have hshift : ∀ x : ℕ, load32 d.disk x / 2 ^ 8 % 2 ^ (fat.fatbit - r) = load32 d.disk (x + 1) / 2 ^ 0 % 2 ^ (fat.fatbit - r) := by
    intro x
    have h8 : fat.fatbit - r ≤ 8 := by omega
    have hx := (d.disk x).toNat_lt
    have hdvd : 2 ^ (fat.fatbit - r) ∣ 2 ^ 8 := pow_dvd_pow 2 h8
    rw [← Nat.mod_mod_of_dvd (load32 d.disk x / 2 ^ 8) hdvd, ← Nat.mod_mod_of_dvd (load32 d.disk (x + 1) / 2 ^ 0) hdvd]
    congr 1
    unfold load32
    omega
  rw [hshift, hone]
  refine load32_bits fun k _ hk => ?_
  rw [hfill _ (by rw [h.block, ← h.sectorsize]; omega), hsec, h.byte hlow, hnext, add_mul]
  congr 1
  omega

end Placed

namespace Lookup

variable {l : Lookup}

/-- **An entry in two sectors** is put together. -/
theorem rest_spec (h : Placed d fat) (hne : fat.firstSec c ≠ fat.lastSec c) (hfill : Filled d l)
    (hsec : l.curFatsector = fat.lastSec c) (hlow : (fat.lastSec c + 1) * fat.sectorsize ≤ 2 ^ 32)
    (hr : l.readbit = 8 * fat.sectorsize - c * fat.fatbit % (8 * fat.sectorsize))
    (hentry : l.entry = rawEntry d.disk c % 2 ^ l.readbit) : Looked d fat c (l.rest fat) := by
  refine ⟨?_, hfill, hsec⟩
  have hlast := h.rawEntry_last hne hfill hsec hlow hr
  obtain ⟨hbit, hcase, -⟩ := h.cross hne
  have hr12 : l.readbit ≤ fat.fatbit := by omega
  have hr32 : l.readbit ≤ 32 := by omega
  have hhigh : load32 l.buffer 0 * 2 ^ l.readbit % 2 ^ 32 = 2 ^ l.readbit * (load32 l.buffer 0 % 2 ^ (32 - l.readbit)) := by
    rw [mul_comm, ← Nat.mul_mod_mul_left, ← pow_add, Nat.add_sub_cancel' hr32]
  have hlt : rawEntry d.disk c % 2 ^ l.readbit < 2 ^ l.readbit := Nat.mod_lt _ (Nat.two_pow_pos _)
  show (l.entry ||| load32 l.buffer 0 * 2 ^ l.readbit % 2 ^ 32) % 2 ^ fat.fatbit = rawEntry d.disk c
  rw [hentry, hhigh, Nat.or_comm, ← Nat.two_pow_add_eq_or_of_lt hlt, ← Nat.add_sub_cancel' hr12, pow_add, Nat.mod_mul,
    Nat.mul_add_mod, Nat.mod_mod, Nat.mul_add_div (Nat.two_pow_pos _), Nat.div_eq_of_lt hlt, Nat.add_zero,
    Nat.mod_mod_of_dvd _ (pow_dvd_pow 2 (by omega)), hlast]
  exact Nat.mod_add_div _ _

/-- **The first sector is there.** -/
theorem first_spec (h : Placed d fat) {s : ℕ} (hfill : Filled d l) (hsec : l.curFatsector = fat.firstSec c)
    (hlow : (fat.lastSec c + 1) * fat.sectorsize ≤ 2 ^ 32) (hs : s % 8 = c * fat.fatbit % 8)
    (hs2 : fat.firstSec c ≠ fat.lastSec c → s / (8 * fat.sectorsize) = c * fat.fatbit / (8 * fat.sectorsize)) :
    Looked d fat c (l.first fat s (c * fat.fatbit % (8 * fat.sectorsize))) := by
  have hle := @firstSec_le fat c
  have hlow1 : (fat.firstSec c + 1) * fat.sectorsize ≤ 2 ^ 32 :=
    (Nat.mul_le_mul_right _ (by omega)).trans hlow
  unfold first
  rw [Placed.sectorbit, hs]
  by_cases hne : fat.firstSec c = fat.lastSec c
  · have hin := h.inside hne
    rw [min_eq_left (by omega), if_neg (lt_irrefl _), h.rawEntry_first hfill hsec hlow1 hin le_rfl, h.rawEntry_eq,
      Nat.mod_mod]
    exact ⟨h.rawEntry_eq.symm, hfill, hsec.trans hne⟩
  · obtain ⟨hbit, hcase, hnext⟩ := h.cross hne
    have hsize := h.size_cases
    have hmin : min fat.fatbit (8 * fat.sectorsize - c * fat.fatbit % (8 * fat.sectorsize)) =
      8 * fat.sectorsize - c * fat.fatbit % (8 * fat.sectorsize) := by omega
    rw [hmin, if_pos (by omega), h.rawEntry_first hfill hsec hlow1 (by omega) (by omega)]
    have hfs : fat.fatsector s (8 * fat.sectorsize - c * fat.fatbit % (8 * fat.sectorsize)) = fat.lastSec c := by
      have hlt : fat.lastSec c < 2 ^ 32 := by
        rcases hsize with hs | hs | hs | hs
        all_goals
          rw [hs] at hlow
          omega
      rw [fatsector, Placed.sectorbit, hs2 hne, if_pos (by omega)]
      exact (congrArg (· % 2 ^ 32) hnext.symm).trans (Nat.mod_eq_of_lt hlt)
    unfold again
    rw [hfs, if_pos (by rw [hsec]; exact hne)]
    exact ⟨.inr ⟨hne, rfl, rfl, rfl⟩, rfl⟩

end Lookup

theorem LookupOk.startbit (hc : LookupOk fat cached c) : fat.startbit c = c * fat.fatbit :=
  Nat.mod_eq_of_lt hc.small

theorem LookupOk.startbitSec (hc : LookupOk fat cached c) :
    fat.startbitSec c = c * fat.fatbit % (8 * fat.sectorsize) := by
  rw [Fat.startbitSec, hc.startbit, Placed.sectorbit]

theorem LookupOk.fatsector (h : Placed d fat) {cached : ℕ} (hc : LookupOk fat cached c) :
    fat.fatsector (fat.startbit c) 0 = fat.firstSec c := by
  have hlt : fat.firstSec c < 2 ^ 32 := by
    have hle := @firstSec_le fat c
    have hlow := hc.low
    rcases h.size_cases with hs | hs | hs | hs
    all_goals
      rw [hs] at hlow
      omega
  rw [Fat.fatsector, hc.startbit, Placed.sectorbit, if_neg (by decide), add_zero]
  exact Nat.mod_eq_of_lt hlt

/-- **A lookup** waits for the sector of the entry, or has the entry. -/
theorem lookupStart_spec (h : Placed d fat) {l : Lookup} (hc : LookupOk fat l.curFatsector c) (hentry : l.entry = c)
    (h2 : 2 ≤ c) (hfill : l.curFatsector ≠ 0 → Filled d l) (hbase : fat.fatbase ≠ 0) :
    Looked d fat c (fat.lookupStart l) := by
  unfold lookupStart
  rw [hentry, if_neg (by omega), hc.fatsector h, hc.startbitSec]
  by_cases hcached : l.curFatsector = fat.firstSec c
  · rw [if_neg (not_not.mpr hcached)]
    have hne : l.curFatsector ≠ 0 := by
      rw [hcached]
      exact (Nat.add_pos_left (pos_of_ne_zero hbase) _).ne'
    exact Lookup.first_spec h (hfill hne) hcached hc.low (hc.shift hcached) (hc.second hcached)
  · rw [if_pos hcached]
    exact ⟨.inl ⟨rfl, rfl, rfl⟩, rfl⟩

/-- **The sector was read**: the lookup waits for the next one, or has the entry. -/
theorem lookupResume_spec (h : Placed d fat) {l : Lookup} {cached : ℕ} (hc : LookupOk fat cached c)
    (hwait : Waiting d fat c l) (hfill : Filled d l) : Looked d fat c (fat.lookupResume l true) := by
  unfold lookupResume
  rw [if_neg (by decide)]
  rcases hwait with ⟨hbit, hentry, hsec⟩ | ⟨hne, hr, hentry, hsec⟩
  · rw [if_neg (not_not.mpr hbit), hentry, hc.startbit, hc.startbitSec]
    exact Lookup.first_spec h hfill hsec hc.low rfl fun _ => rfl
  · have hsize := h.size_cases
    have := Nat.mod_lt (c * fat.fatbit) (show 0 < 8 * fat.sectorsize by omega)
    rw [if_pos (by omega)]
    exact Lookup.rest_spec h hne hfill hsec hc.low hr hentry

end Fat
end Vsf
