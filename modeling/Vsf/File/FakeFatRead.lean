/-
# A FAT32 volume that is never stored: reading a sector

`fakefat32_mal_read` makes each sector when it is read: the partition table, the boot sector and its
copy, the two FATs, and the clusters. The sector is looked up by `(uint32_t)addr / page_size`.
-/
import Mathlib
import Vsf.File.FakeFatDir

namespace Vsf
namespace FakeFat

open File

/-! ### The boot sector -/

/-- `fakefat32_mbr`, as it is before anything is written. -/
def fakefat32Mbr : List UInt8 :=
  [0xEB, 0x58, 0x90, 0x4D, 0x53, 0x44, 0x4F, 0x53, 0x35, 0x2E, 0x30, 0x00, 0x00, 0x00, 0x10, 0x00,
  0x02, 0x00, 0x00, 0x00, 0x00, 0xF8, 0x00, 0x00, 0x3F, 0x00, 0xFF, 0x00, 0x40, 0x00, 0x00, 0x00,
  0x00, 0x00, 0x00, 0x00, 0x00, 0x00, 0x00, 0x00, 0x00, 0x00, 0x00, 0x00, 0x02, 0x00, 0x00, 0x00,
  0x01, 0x00, 0x06, 0x00, 0x00, 0x00, 0x00, 0x00, 0x00, 0x00, 0x00, 0x00, 0x00, 0x00, 0x00, 0x00,
  0x00, 0x00, 0x29, 0x00, 0x00, 0x00, 0x00, 0x4E, 0x4F, 0x20, 0x4E, 0x41, 0x4D, 0x45, 0x20, 0x20,
  0x20, 0x20, 0x46, 0x41, 0x54, 0x33, 0x32, 0x20, 0x20, 0x20, 0x33, 0xC9, 0x8E, 0xD1, 0xBC, 0xF4,
  0x7B, 0x8E, 0xC1, 0x8E, 0xD9, 0xBD, 0x00, 0x7C, 0x88, 0x4E, 0x02, 0x8A, 0x56, 0x40, 0xB4, 0x08,
  0xCD, 0x13, 0x73, 0x05, 0xB9, 0xFF, 0xFF, 0x8A, 0xF1, 0x66, 0x0F, 0xB6, 0xC6, 0x40, 0x66, 0x0F,
  0xB6, 0xD1, 0x80, 0xE2, 0x3F, 0xF7, 0xE2, 0x86, 0xCD, 0xC0, 0xED, 0x06, 0x41, 0x66, 0x0F, 0xB7,
  0xC9, 0x66, 0xF7, 0xE1, 0x66, 0x89, 0x46, 0xF8, 0x83, 0x7E, 0x16, 0x00, 0x75, 0x38, 0x83, 0x7E,
  0x2A, 0x00, 0x77, 0x32, 0x66, 0x8B, 0x46, 0x1C, 0x66, 0x83, 0xC0, 0x0C, 0xBB, 0x00, 0x80, 0xB9,
  0x01, 0x00, 0xE8, 0x2B, 0x00, 0xE9, 0x48, 0x03, 0xA0, 0xFA, 0x7D, 0xB4, 0x7D, 0x8B, 0xF0, 0xAC,
  0x84, 0xC0, 0x74, 0x17, 0x3C, 0xFF, 0x74, 0x09, 0xB4, 0x0E, 0xBB, 0x07, 0x00, 0xCD, 0x10, 0xEB,
  0xEE, 0xA0, 0xFB, 0x7D, 0xEB, 0xE5, 0xA0, 0xF9, 0x7D, 0xEB, 0xE0, 0x98, 0xCD, 0x16, 0xCD, 0x19,
  0x66, 0x60, 0x66, 0x3B, 0x46, 0xF8, 0x0F, 0x82, 0x4A, 0x00, 0x66, 0x6A, 0x00, 0x66, 0x50, 0x06,
  0x53, 0x66, 0x68, 0x10, 0x00, 0x01, 0x00, 0x80, 0x7E, 0x02, 0x00, 0x0F, 0x85, 0x20, 0x00, 0xB4,
  0x41, 0xBB, 0xAA, 0x55, 0x8A, 0x56, 0x40, 0xCD, 0x13, 0x0F, 0x82, 0x1C, 0x00, 0x81, 0xFB, 0x55,
  0xAA, 0x0F, 0x85, 0x14, 0x00, 0xF6, 0xC1, 0x01, 0x0F, 0x84, 0x0D, 0x00, 0xFE, 0x46, 0x02, 0xB4,
  0x42, 0x8A, 0x56, 0x40, 0x8B, 0xF4, 0xCD, 0x13, 0xB0, 0xF9, 0x66, 0x58, 0x66, 0x58, 0x66, 0x58,
  0x66, 0x58, 0xEB, 0x2A, 0x66, 0x33, 0xD2, 0x66, 0x0F, 0xB7, 0x4E, 0x18, 0x66, 0xF7, 0xF1, 0xFE,
  0xC2, 0x8A, 0xCA, 0x66, 0x8B, 0xD0, 0x66, 0xC1, 0xEA, 0x10, 0xF7, 0x76, 0x1A, 0x86, 0xD6, 0x8A,
  0x56, 0x40, 0x8A, 0xE8, 0xC0, 0xE4, 0x06, 0x0A, 0xCC, 0xB8, 0x01, 0x02, 0xCD, 0x13, 0x66, 0x61,
  0x0F, 0x82, 0x54, 0xFF, 0x81, 0xC3, 0x00, 0x02, 0x66, 0x40, 0x49, 0x0F, 0x85, 0x71, 0xFF, 0xC3,
  0x4E, 0x54, 0x4C, 0x44, 0x52, 0x20, 0x20, 0x20, 0x20, 0x20, 0x20, 0x00, 0x00, 0x00, 0x00, 0x00,
  0x00, 0x00, 0x00, 0x00, 0x00, 0x00, 0x00, 0x00, 0x00, 0x00, 0x00, 0x00, 0x00, 0x00, 0x00, 0x00,
  0x00, 0x00, 0x00, 0x00, 0x00, 0x00, 0x00, 0x00, 0x00, 0x00, 0x00, 0x00, 0x00, 0x00, 0x00, 0x00,
  0x00, 0x00, 0x00, 0x00, 0x00, 0x00, 0x00, 0x00, 0x00, 0x00, 0x00, 0x00, 0x0D, 0x0A, 0x52, 0x65,
  0x6D, 0x6F, 0x76, 0x65, 0x20, 0x64, 0x69, 0x73, 0x6B, 0x73, 0x20, 0x6F, 0x72, 0x20, 0x6F, 0x74,
  0x68, 0x65, 0x72, 0x20, 0x6D, 0x65, 0x64, 0x69, 0x61, 0x2E, 0xFF, 0x0D, 0x0A, 0x44, 0x69, 0x73,
  0x6B, 0x20, 0x65, 0x72, 0x72, 0x6F, 0x72, 0xFF, 0x0D, 0x0A, 0x50, 0x72, 0x65, 0x73, 0x73, 0x20,
  0x61, 0x6E, 0x79, 0x20, 0x6B, 0x65, 0x79, 0x20, 0x74, 0x6F, 0x20, 0x72, 0x65, 0x73, 0x74, 0x61,
  0x72, 0x74, 0x0D, 0x0A, 0x00, 0x00, 0x00, 0x00, 0x00, 0xAC, 0xCB, 0xD8, 0x00, 0x00, 0x55, 0xAA]
variable (p : Param)

/-- `FAT32_RES_SECTORS`. -/
def resSectors : UInt32 := (LE.get16 p.mbr 0x0E).toUInt32

/-- `FAT32_FAT_NUM`. -/
def fatNum : UInt32 := (LE.get8 p.mbr 0x10).toUInt32

/-- `FAT32_HIDDEN_SECTORS`. -/
def hiddenSectors : UInt32 := LE.get32 p.mbr 0x1C

/-- `FAT32_FSINFO_SECTOR`. -/
def fsinfoSector : UInt32 := (LE.get8 p.mbr 0x30).toUInt32

/-- `FAT32_BACKUP_SECTOR`. -/
def backupSector : UInt32 := (LE.get16 p.mbr 0x32).toUInt32

/-- `fakefat32_calc_fat_sectors`. -/
def calcFatSectors : UInt32 :=
  (p.sectorNumber / p.sectorsPerCluster.toUInt32 + 1 + rootCluster p) * 4 / p.sectorSize.toUInt32 + 1

/-- The sectors in front of the clusters. -/
def sysSectors : UInt32 := hiddenSectors p + resSectors p + fatNum p * calcFatSectors p

/-! ### The FAT -/

def fatStart : UInt32 := 0x0FFFFFF8
def fatFileend : UInt32 := 0x0FFFFFFF
def fatInvalid : UInt32 := 0xFFFFFFFF

/-- The file of a cluster in the FAT, as the place in it, as long as it goes on. -/
def fatFile (cur : Option (UInt32 × UInt32)) (idx : UInt32) : Option (UInt32 × UInt32) :=
  match cur.filter fun c => c.1 < c.2 with
  | some c => some c
  | none =>
    (getFileByCluster p idx [] p.tree).map fun o => (idx - o.file.firstCluster, fileClusters p o.file)

/-- The second loop over a sector of the FAT, with the loop over a file in it. -/
def fatFiles : ℕ → Option (UInt32 × UInt32) → UInt32 → List UInt32
  | 0, _, _ => []
  | n + 1, cur, idx =>
    match fatFile p cur idx with
    | none => 0 :: fatFiles n none (idx + 1)
    | some (o, c) => (if o = c - 1 then fatFileend else idx + 1) :: fatFiles n (some (o + 1, c)) (idx + 1)

/-- The words of a sector of the FAT, from the cluster `idx` on. -/
def fatWords : ℕ → UInt32 → List UInt32
  | 0, _ => []
  | n + 1, idx =>
    if idx < rootCluster p then (if idx = 0 then fatStart else fatInvalid) :: fatWords n (idx + 1)
    else fatFiles p (n + 1) none idx

/-- A sector of the FAT. A sector has a whole number of words. -/
def fatSector (block page : UInt32) : List UInt8 :=
  let fatSector := (block - hiddenSectors p - resSectors p) % calcFatSectors p
  (fatWords p (page / 4).toNat (fatSector * (page / 4))).flatMap LE.bytes32

/-! ### The sectors in front of the clusters -/

/-- The partition table. -/
def dptSector (buff : List UInt8) : List UInt8 :=
  let buff := LE.put buff 0x1B8 (LE.bytes32 p.diskId)
  let buff := LE.put buff 0x1BE [0x80, 0x01, 0x01, 0x00, 0x0B, 0x01, 0xFF, 0xFF]
  let buff := LE.put buff 0x1C6 (LE.bytes32 (hiddenSectors p))
  let buff := LE.put buff 0x1CA (LE.bytes32 p.sectorNumber)
  LE.put buff 510 [0x55, 0xAA]

/-- The boot sector. -/
def bootSector (buff : List UInt8) : List UInt8 :=
  let buff := LE.put buff 0 p.mbr
  let buff := LE.put buff 0x0B (LE.bytes16 p.sectorSize)
  let buff := LE.put buff 0x0D [p.sectorsPerCluster]
  let buff := LE.put buff 0x20 (LE.bytes32 p.sectorNumber)
  let buff := LE.put buff 0x24 (LE.bytes32 (calcFatSectors p))
  LE.put buff 0x43 (LE.bytes32 p.volumeId)

/-- The FSInfo sector. -/
def fsinfo (buff : List UInt8) : List UInt8 :=
  let buff := LE.put buff 0 (LE.bytes32 0x41615252)
  let buff := LE.put buff 484 (LE.bytes32 0x61417272)
  let buff := LE.put buff 488 (LE.bytes32 0xFFFFFFFF)
  LE.put buff 510 [0x55, 0xAA]

/-- The part of `fakefat32_mal_read` for what stands in front of the clusters. -/
def sysRead (page block : UInt32) (buff : List UInt8) : Option (List UInt8) :=
  let hidden := hiddenSectors p
  let backup := backupSector p
  let info := fsinfoSector p
  let buff := if block < sysSectors p then LE.put buff 0 (List.replicate page.toNat 0) else buff
  if 0 < hidden ∧ block = 0 then some (dptSector p buff)
  else if 0 < hidden ∧ block < hidden then some buff
  else if block = hidden ∨ block = hidden + backup then some (bootSector p buff)
  else if block = hidden + info ∨ block = hidden + backup + info then some (fsinfo buff)
  else if block = hidden + info + 1 ∨ block = hidden + backup + info + 1 then some (LE.put buff 510 [0xAA, 0x55])
  else if block < hidden + resSectors p then some buff
  else if block < fatNum p * calcFatSectors p + resSectors p + hidden then
    some (LE.put buff 0 (fatSector p block page))
  else none

/-! ### `fakefat32_mal_read` -/

/-- `n` bytes of a file's memory from `offset`; behind the array there is 0. -/
def bytesAt (d : List UInt8) (offset n : ℕ) : List UInt8 := (List.range n).map fun k => d.getD (offset + k) 0

/-- The number of bytes `vsfile_memfs_read` and `vsfile_memfs_write` copy. -/
def memfsSize (f : Node) (offset : UInt64) (size : UInt32) : ℕ :=
  if offset ≥ f.size then 0 else min size.toNat (f.size - offset).toNat

/-- `vsfile_memfs_read`. -/
def memfsRead (f : Node) (d : List UInt8) (offset : UInt64) (size : UInt32) (buff : List UInt8) : List UInt8 :=
  LE.put buff 0 (bytesAt d offset.toNat (memfsSize f offset size))

/-- The owner of a cluster with other children, or with another file for it. -/
def setByCluster (cluster : UInt32) (file : Node) (files : Files) : Files → Files
  | .nil => .nil
  | .cons f child next =>
    if f.firstCluster ≤ cluster ∧ cluster < f.firstCluster + fileClusters p f then .cons file files next
    else
      match if f.isDir then getFileByCluster p cluster [] child else none with
      | some _ => .cons f (setByCluster cluster file files child) next
      | none => .cons f child (setByCluster cluster file files next)

def Param.setTree (p : Param) : Files → Param
  | .nil => p
  | .cons root child _ => { p with root, child }

/-- `struct vsfmal_t`. -/
structure Mal where
  param : Param
  blockSize : UInt64
  blockNum : UInt64

/-- `fakefat32_mal_init`. -/
def malInit : Mal where
  param := init p
  blockSize := p.sectorSize.toUInt64
  blockNum := (p.sectorNumber + hiddenSectors p).toUInt64

/-- `page_size`. -/
def Mal.pageSize (m : Mal) : UInt32 := m.blockSize.toUInt32

/-- `block_addr`. -/
def Mal.blockAddr (m : Mal) (addr : UInt64) : UInt32 := addr.toUInt32 / m.pageSize

/-- `sectors_to_root`. -/
def sectorsToRoot (block : UInt32) : UInt32 := block - hiddenSectors p - resSectors p - fatNum p * calcFatSectors p

/-- `cluster_index`. -/
def clusterIndex (block : UInt32) : UInt32 := rootCluster p + sectorsToRoot p block / p.sectorsPerCluster.toUInt32

/-- `addr_offset`. -/
def addrOffset (f : Node) (block : UInt32) : UInt32 :=
  p.sectorSize.toUInt32 * (sectorsToRoot p block - p.sectorsPerCluster.toUInt32 * (f.firstCluster - rootCluster p))

/-- The file whose sector is read: not a write-only owner. -/
def readOwner (block : UInt32) : Option Owner :=
  (getFileByCluster p (clusterIndex p block) [] p.tree).filter fun o => o.file.attr &&& attrWriteonly = 0

/-- The part of `fakefat32_mal_read` for the clusters. -/
def dataRead (page block : UInt32) (buff : List UInt8) : File.Err × List UInt8 × Param :=
  match readOwner p block with
  | none => (.none, buff, p)
  | some o =>
    let offset := addrOffset p o.file block
    match if o.file.isDir then none else o.file.buff with
    | some d => (.none, memfsRead o.file d offset.toUInt64 page buff, p)
    | none =>
      match o.file.cb with
      | .dir =>
        let r := dirRead o.file o.up o.child offset.toUInt64 page
        (r.1, LE.put buff 0 r.2.1, p.setTree (setByCluster p (clusterIndex p block) o.file r.2.2 p.tree))
      | .user (some read) _ =>
        let r := read offset buff
        (r.1, r.2, p)
      | .user none _ => (.none, buff, p)

/-- `fakefat32_mal_read`: what is in the buffer then. -/
def malRead (m : Mal) (addr : UInt64) (buff : List UInt8) : File.Err × List UInt8 × Mal :=
  match sysRead m.param m.pageSize (m.blockAddr addr) buff with
  | some buff => (.none, buff, m)
  | none =>
    let r := dataRead m.param m.pageSize (m.blockAddr addr) buff
    (r.1, r.2.1, { m with param := r.2.2 })

/-! ### The geometry -/

/-- The boot sector has the fields it had at first. -/
structure Boot : Prop where
  length : p.mbr.length = 512
  res : resSectors p = 16
  num : fatNum p = 2
  hidden : hiddenSectors p = 64
  root : rootCluster p = 2
  info : fsinfoSector p = 1
  backup : backupSector p = 6

/-- A volume below 4 GiB with room for its FATs. -/
structure Geometry : Prop where
  boot : Boot p
  words : 4 ∣ p.sectorSize.toNat
  sector : 512 ≤ p.sectorSize.toNat
  cluster : 0 < p.sectorsPerCluster.toNat
  room : 16 + 2 * (calcFatSectors p).toNat ≤ p.sectorNumber.toNat
  below : (p.sectorNumber.toNat + 64) * p.sectorSize.toNat ≤ 2 ^ 32

/-- The clusters there is room for. -/
def dataClusters : ℕ := (p.sectorNumber.toNat - 16 - 2 * (calcFatSectors p).toNat) / p.sectorsPerCluster.toNat

variable {p}

theorem Boot.of_table (h : p.mbr = fakefat32Mbr) : Boot p := by
  constructor
  · rw [h]
    decide +kernel
  · rw [resSectors, h]
    decide
  · rw [fatNum, h]
    decide
  · rw [hiddenSectors, h]
    decide
  · rw [rootCluster, h]
    decide
  · rw [fsinfoSector, h]
    decide
  · rw [backupSector, h]
    decide

theorem Geometry.sectors_lt (g : Geometry p) : p.sectorNumber.toNat + 64 ≤ 2 ^ 23 := by
  have h := Nat.mul_le_mul_left (p.sectorNumber.toNat + 64) g.sector
  have := g.below
  omega

theorem clusterSize_toNat (p : Param) :
    (clusterSize p).toNat = p.sectorSize.toNat * p.sectorsPerCluster.toNat := by
  have h1 := p.sectorSize.toNat_lt
  have h2 := p.sectorsPerCluster.toNat_lt
  have h3 : p.sectorSize.toNat * p.sectorsPerCluster.toNat < 2 ^ 16 * 2 ^ 8 := Nat.mul_lt_mul'' h1 h2
  rw [clusterSize, UInt32.toNat_mul, UInt16.toNat_toUInt32, UInt8.toNat_toUInt32]
  exact Nat.mod_eq_of_lt (by omega)

theorem Geometry.fat_toNat (g : Geometry p) : (calcFatSectors p).toNat =
    (p.sectorNumber.toNat / p.sectorsPerCluster.toNat + 3) * 4 / p.sectorSize.toNat + 1 := by
  have hsn := g.sectors_lt
  have hdiv := Nat.div_le_self p.sectorNumber.toNat p.sectorsPerCluster.toNat
  have hdiv' := Nat.div_le_self ((p.sectorNumber.toNat / p.sectorsPerCluster.toNat + 1 + 2) * 4) p.sectorSize.toNat
  rw [calcFatSectors, g.boot.root]
  simp only [UInt32.toNat_add, UInt32.toNat_div, UInt32.toNat_mul, UInt8.toNat_toUInt32, UInt16.toNat_toUInt32,
    UInt32.reduceToNat]
  rw [Nat.mod_eq_of_lt (a := p.sectorNumber.toNat / p.sectorsPerCluster.toNat + 1) (by omega),
    Nat.mod_eq_of_lt (a := p.sectorNumber.toNat / p.sectorsPerCluster.toNat + 1 + 2) (by omega),
    Nat.mod_eq_of_lt (a := (p.sectorNumber.toNat / p.sectorsPerCluster.toNat + 1 + 2) * 4) (by omega)]
  exact Nat.mod_eq_of_lt (by omega)

theorem Geometry.covers (g : Geometry p) :
    2 + dataClusters p < (calcFatSectors p).toNat * (p.sectorSize.toNat / 4) := by
  obtain ⟨w, hw⟩ := g.words
  have hs := g.sector
  have hle : dataClusters p ≤ p.sectorNumber.toNat / p.sectorsPerCluster.toNat :=
    Nat.div_le_div_right (by omega)
  have hlt := Nat.lt_mul_div_succ ((p.sectorNumber.toNat / p.sectorsPerCluster.toNat + 3) * 4) (b := p.sectorSize.toNat) (by omega)
  rw [g.fat_toNat]
  generalize (p.sectorNumber.toNat / p.sectorsPerCluster.toNat + 3) * 4 / p.sectorSize.toNat + 1 = k at hlt ⊢
  rw [hw] at hlt ⊢
  rw [Nat.mul_div_cancel_left w (by omega), Nat.mul_comm k]
  rw [Nat.mul_assoc] at hlt
  omega

/-! ### Where a sector is -/

theorem Boot.sys_toNat (hb : Boot p) (hs : 512 ≤ p.sectorSize.toNat) : (sysSectors p).toNat = 80 + 2 * (calcFatSectors p).toNat := by
  have hfat : (calcFatSectors p).toNat ≤ 2 ^ 23 + 1 := by
    rw [calcFatSectors, UInt32.toNat_add, UInt32.toNat_div, UInt16.toNat_toUInt32, UInt32.toNat_one]
    have hlt := ((p.sectorNumber / p.sectorsPerCluster.toUInt32 + 1 + rootCluster p) * 4).toNat_lt
    have hdiv : ((p.sectorNumber / p.sectorsPerCluster.toUInt32 + 1 + rootCluster p) * 4).toNat / p.sectorSize.toNat ≤ 2 ^ 32 / 512 :=
      Nat.div_le_div hlt.le hs (by decide)
    exact (Nat.mod_le _ _).trans (Nat.succ_le_succ hdiv)
  rw [sysSectors, hb.hidden, hb.res, hb.num]
  simp only [UInt32.toNat_add, UInt32.toNat_mul, UInt32.reduceToNat]
  omega

variable {block : UInt32}

theorem ne_of_toNat_lt {a b : UInt32} (h : a.toNat < b.toNat) : b ≠ a := by
  rintro rfl
  exact lt_irrefl _ h

theorem sysRead_behind (page : UInt32) (buff : List UInt8) (hb : Boot p) (hs : 512 ≤ p.sectorSize.toNat) (hlo : 80 ≤ block.toNat) :
    sysRead p page block buff = if block.toNat < 80 + 2 * (calcFatSectors p).toNat then
      some (LE.put (LE.put buff 0 (List.replicate page.toNat 0)) 0 (fatSector p block page))
    else none := by
  have hsys := hb.sys_toNat hs
  have hne : ∀ a : UInt32, a.toNat < 80 → block ≠ a := fun a ha => ne_of_toNat_lt (ha.trans_le hlo)
  have hge : ∀ a : UInt32, a.toNat ≤ 80 → ¬ block < a := by
    intro a ha h
    rw [UInt32.lt_iff_toNat_lt] at h
    omega
  have hcomm : fatNum p * calcFatSectors p + resSectors p + hiddenSectors p = sysSectors p := by
    rw [sysSectors]
    ac_rfl
  have hend : block < sysSectors p ↔ block.toNat < 80 + 2 * (calcFatSectors p).toNat := by
    rw [UInt32.lt_iff_toNat_lt, hsys]
  unfold sysRead
  dsimp only
  rw [hcomm, hb.hidden, hb.backup, hb.info, hb.res]
  rw [if_neg fun h => hne 0 (by decide) h.2, if_neg fun h => hge 64 (by decide) h.2,
    if_neg (not_or.mpr ⟨hne 64 (by decide), hne (64 + 6) (by decide)⟩),
    if_neg (not_or.mpr ⟨hne (64 + 1) (by decide), hne (64 + 6 + 1) (by decide)⟩),
    if_neg (not_or.mpr ⟨hne (64 + 1 + 1) (by decide), hne (64 + 6 + 1 + 1) (by decide)⟩),
    if_neg (hge (64 + 16) (by decide))]
  by_cases hfat : block.toNat < 80 + 2 * (calcFatSectors p).toNat
  · rw [if_pos hfat, if_pos (hend.mpr hfat), if_pos (hend.mpr hfat)]
  · rw [if_neg hfat, if_neg fun h => hfat (hend.mp h)]

end FakeFat
end Vsf
