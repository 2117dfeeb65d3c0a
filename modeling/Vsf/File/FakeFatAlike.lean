/-
# A FAT32 volume that is never stored: what a read depends on

Two volumes read the same if they have the same geometry, the same boot sector, and trees that
differ at most in the memory of write-only files (`Alike.malRead`). Where the host writes the boot
sector back as read, its fields are put into it again (`alike_boot`).
-/
import Mathlib
import Vsf.File.FakeFatFresh

namespace Vsf
namespace FakeFat

open File List Option

/-! ### Trees without some of the memory -/

/-- A file without its memory, if `b` says so. -/
def Node.hide (b : UInt8 → Bool) (f : Node) : Node := { f with buff := if b f.attr then none else f.buff }

def Files.hide (b : UInt8 → Bool) : Files → Files
  | .nil => .nil
  | .cons f child next => .cons (f.hide b) (child.hide b) (next.hide b)

def Owner.hide (b : UInt8 → Bool) (o : Owner) : Owner := ⟨o.file.hide b, o.child.hide b, o.up.map (Node.hide b)⟩

variable (b : UInt8 → Bool) {p q : Param} {m m' : Mal} {page : UInt32} {buff : List UInt8}

@[simp] theorem Files.hide_cons (f : Node) (child next : Files) :
    (Files.cons f child next).hide b = .cons (f.hide b) (child.hide b) (next.hide b) := rfl

@[simp] theorem Node.hide_isDir (f : Node) : (f.hide b).isDir = f.isDir := rfl

@[simp] theorem Node.hide_firstCluster (f : Node) : (f.hide b).firstCluster = f.firstCluster := rfl

@[simp] theorem Node.hide_name (f : Node) : (f.hide b).name = f.name := rfl

@[simp] theorem Node.hide_attr (f : Node) : (f.hide b).attr = f.attr := rfl

theorem getFileByCluster_hide (hpq : clusterSize q = clusterSize p) (c : UInt32) : ∀ (fs : Files) (up : List Node),
    getFileByCluster q c (up.map (Node.hide b)) (fs.hide b) = (getFileByCluster p c up fs).map (Owner.hide b)
  | .nil, _ => rfl
  | .cons f child next, up => by
    have hclusters : fileClusters q (f.hide b) = fileClusters p f := by
      rw [fileClusters, hpq, fileClusters]
      rfl
    rw [Files.hide_cons, getFileByCluster, getFileByCluster, hclusters, Node.hide_isDir, Node.hide_firstCluster]
    have hchild := getFileByCluster_hide hpq c child (f :: up)
    rw [map_cons] at hchild
    have hnext := getFileByCluster_hide hpq c next up
    by_cases hf : f.firstCluster ≤ c ∧ c < f.firstCluster + fileClusters p f
    · rw [if_pos hf, if_pos hf]
      rfl
    rw [if_neg hf, if_neg hf]
    by_cases hd : f.isDir
    · rw [if_pos hd, if_pos hd, hchild, hnext]
      cases getFileByCluster p c (f :: up) child with
      | none => rfl
      | some o => rfl
    · rw [if_neg hd, if_neg hd, hnext]

theorem setByCluster_hide (c : UInt32) (file : Node) (files : Files) : ∀ fs : Files,
    setByCluster p c (file.hide b) (files.hide b) (fs.hide b) = (setByCluster p c file files fs).hide b
  | .nil => rfl
  | .cons f child next => by
    have hclusters : fileClusters p (f.hide b) = fileClusters p f := rfl
    rw [Files.hide_cons, setByCluster, setByCluster, hclusters, Node.hide_isDir, Node.hide_firstCluster]
    by_cases hf : f.firstCluster ≤ c ∧ c < f.firstCluster + fileClusters p f
    · rw [if_pos hf, if_pos hf]
      rfl
    rw [if_neg hf, if_neg hf, setByCluster_hide c file files child,
      setByCluster_hide c file files next]
    have hchild := getFileByCluster_hide b (rfl : clusterSize p = clusterSize p) c child []
    rw [map_nil] at hchild
    by_cases hd : f.isDir
    · rw [if_pos hd, if_pos hd, hchild]
      cases getFileByCluster p c [] child with
      | none => rfl
      | some o => rfl
    · rw [if_neg hd, if_neg hd]
      rfl

/-! ### Directories -/

theorem fixRecord_hide (dir : Node) (up : List Node) (f : Node) :
    fixRecord (dir.hide b) (up.map (Node.hide b)) (f.hide b) = (fixRecord dir up f).hide b := by
  unfold fixRecord
  rw [Node.hide_name]
  split_ifs
  · rfl
  · match up with
    | [] => rfl
    | [_] => rfl
    | _ :: _ :: _ => rfl
  · rfl

theorem dirEntries_hide (dir : Node) (up : List Node) : ∀ (fs : Files) (page : UInt32) (offset : UInt8),
    dirEntries (dir.hide b) (up.map (Node.hide b)) page offset (fs.hide b) =
      ((dirEntries dir up page offset fs).1, (dirEntries dir up page offset fs).2.hide b)
  | .nil, _, _ => rfl
  | .cons f child next, page, offset => by
    have hindex : longIndex (f.hide b) offset = longIndex f offset := rfl
    have hvolume : volumeEntry (f.hide b) = volumeEntry f := rfl
    have hshort : ∀ g : Node, shortEntry (g.hide b) = shortEntry g := fun _ => rfl
    rw [Files.hide_cons, dirEntries, dirEntries]
    simp only [Node.hide_name, Node.hide_attr, hindex, hvolume, fixRecord_hide, hshort, dirEntries_hide dir up next]
    split_ifs <;> rfl

theorem dirSeek_hide (dir : Node) (up : List Node) (page : UInt32) : ∀ (fs : Files) (addr : UInt64),
    dirSeek (dir.hide b) (up.map (Node.hide b)) page addr (fs.hide b) =
      ((dirSeek dir up page addr fs).1, (dirSeek dir up page addr fs).2.hide b)
  | .nil, _ => rfl
  | .cons f child next, addr => by
    have hsize : entrySize (f.hide b) = entrySize f := rfl
    have hentries := dirEntries_hide b dir up (.cons f child next) page
    rw [Files.hide_cons] at hentries
    rw [Files.hide_cons, dirSeek, dirSeek]
    simp only [hsize, hentries, dirSeek_hide dir up page next]
    split_ifs <;> rfl

theorem dirRead_hide (dir : Node) (up : List Node) (fs : Files) (addr : UInt64) (page : UInt32) :
    dirRead (dir.hide b) (up.map (Node.hide b)) (fs.hide b) addr page =
      ((dirRead dir up fs addr page).1, (dirRead dir up fs addr page).2.1, (dirRead dir up fs addr page).2.2.hide b) := by
  unfold dirRead
  simp only [Node.hide_isDir, dirSeek_hide]
  split_ifs <;> rfl

/-! ### Volumes that read the same -/

/-- What no read tells: the memory of write-only files. -/
def unread (attr : UInt8) : Bool := attr &&& attrWriteonly ≠ 0

/-- Volumes that differ in write-only memory, and in fields of the boot sector made when read. -/
structure Alike (p q : Param) : Prop where
  size : q.sectorSize = p.sectorSize
  number : q.sectorNumber = p.sectorNumber
  cluster : q.sectorsPerCluster = p.sectorsPerCluster
  disk : q.diskId = p.diskId
  boot : Boot p
  boot' : Boot q
  made : ∀ buff : List UInt8, buff.length = p.sectorSize.toNat → bootSector q buff = bootSector p buff
  tree : q.tree.hide unread = p.tree.hide unread

variable {b}

theorem Alike.clusterSize (h : Alike p q) : FakeFat.clusterSize q = FakeFat.clusterSize p := by
  unfold FakeFat.clusterSize
  rw [h.size, h.cluster]

theorem Alike.fatSectors (h : Alike p q) : calcFatSectors q = calcFatSectors p := by
  unfold calcFatSectors
  rw [h.size, h.number, h.cluster, h.boot.root, h.boot'.root]

theorem Alike.find (h : Alike p q) (c : UInt32) :
    (getFileByCluster q c [] q.tree).map (Owner.hide unread) = (getFileByCluster p c [] p.tree).map (Owner.hide unread) := by
  have hp := getFileByCluster_hide unread (rfl : FakeFat.clusterSize p = FakeFat.clusterSize p) c p.tree []
  have hq := getFileByCluster_hide unread h.clusterSize.symm c q.tree []
  rw [map_nil] at hp hq
  rw [← hp, h.tree.symm, hq]

theorem Alike.fatFile (h : Alike p q) (cur : Option (UInt32 × UInt32)) (idx : UInt32) :
    FakeFat.fatFile q cur idx = FakeFat.fatFile p cur idx := by
  have hfile : ∀ (r : Param) (o : Option Owner), FakeFat.clusterSize r = FakeFat.clusterSize p →
      o.map (fun o => (idx - o.file.firstCluster, FakeFat.fileClusters r o.file)) =
        (o.map (Owner.hide unread)).map fun o => (idx - o.file.firstCluster, FakeFat.fileClusters p o.file) := by
    intro r o hr
    cases o with
    | none => rfl
    | some o =>
      have hclusters : FakeFat.fileClusters r o.file = FakeFat.fileClusters p (o.hide unread).file := by
        rw [FakeFat.fileClusters, hr, FakeFat.fileClusters]
        rfl
      rw [map_some, map_some, map_some, hclusters]
      rfl
  unfold FakeFat.fatFile
  split
  · rfl
  · rw [hfile q _ h.clusterSize, h.find, ← hfile p _ rfl]

theorem Alike.fatFiles (h : Alike p q) : ∀ (n : ℕ) (cur : Option (UInt32 × UInt32)) (idx : UInt32),
    FakeFat.fatFiles q n cur idx = FakeFat.fatFiles p n cur idx
  | 0, _, _ => rfl
  | n + 1, cur, idx => by
    unfold FakeFat.fatFiles
    rw [h.fatFile]
    split
    · rw [h.fatFiles n]
    · rw [h.fatFiles n]

theorem Alike.fatWords (h : Alike p q) : ∀ (n : ℕ) (idx : UInt32), FakeFat.fatWords q n idx = FakeFat.fatWords p n idx
  | 0, _ => rfl
  | n + 1, idx => by
    unfold FakeFat.fatWords
    rw [h.boot.root, h.boot'.root, h.fatWords n, h.fatFiles (n + 1)]

theorem Alike.sysRead (h : Alike p q) (block : UInt32) (hpage : page = p.sectorSize.toUInt32) (hbuff : buff.length = page.toNat) :
    FakeFat.sysRead q page block buff = FakeFat.sysRead p page block buff := by
  have hsys : sysSectors q = sysSectors p := by
    unfold sysSectors
    rw [h.boot.hidden, h.boot'.hidden, h.boot.res, h.boot'.res, h.boot.num, h.boot'.num, h.fatSectors]
  have hfat : fatSector q block page = fatSector p block page := by
    unfold fatSector
    dsimp only
    rw [h.boot.hidden, h.boot'.hidden, h.boot.res, h.boot'.res, h.fatSectors, h.fatWords]
  have hdpt : ∀ buff, dptSector q buff = dptSector p buff := by
    intro buff
    unfold dptSector
    rw [h.disk, h.number, h.boot.hidden, h.boot'.hidden]
  have hlen : (if block < sysSectors p then LE.put buff 0 (List.replicate page.toNat 0) else buff).length = p.sectorSize.toNat := by
    have hss : page.toNat = p.sectorSize.toNat := by rw [hpage, UInt16.toNat_toUInt32]
    split_ifs
    · rw [put_zeros hbuff, length_replicate, hss]
    · rw [hbuff, hss]
  unfold FakeFat.sysRead
  dsimp only
  rw [hsys, hfat, hdpt, h.made _ hlen, h.boot.hidden, h.boot'.hidden, h.boot.backup, h.boot'.backup, h.boot.info, h.boot'.info,
    h.boot.res, h.boot'.res, h.boot.num, h.boot'.num, h.fatSectors]

theorem Alike.sectorsToRoot (h : Alike p q) (block : UInt32) : FakeFat.sectorsToRoot q block = FakeFat.sectorsToRoot p block := by
  unfold FakeFat.sectorsToRoot
  rw [h.boot.hidden, h.boot'.hidden, h.boot.res, h.boot'.res, h.boot.num, h.boot'.num, h.fatSectors]

theorem Alike.clusterIndex (h : Alike p q) (block : UInt32) : FakeFat.clusterIndex q block = FakeFat.clusterIndex p block := by
  unfold FakeFat.clusterIndex
  rw [h.boot.root, h.boot'.root, h.sectorsToRoot, h.cluster]

theorem Alike.addrOffset (h : Alike p q) (f : Node) (block : UInt32) : FakeFat.addrOffset q f block = FakeFat.addrOffset p f block := by
  unfold FakeFat.addrOffset
  rw [h.size, h.sectorsToRoot, h.cluster, h.boot.root, h.boot'.root]

theorem Alike.readOwner (h : Alike p q) (block : UInt32) : (FakeFat.readOwner q block = none ∧ FakeFat.readOwner p block = none) ∨
    ∃ o o', FakeFat.readOwner q block = some o' ∧ FakeFat.readOwner p block = some o ∧ o'.file = o.file ∧
      o'.hide unread = o.hide unread := by
  have hfind := h.find (FakeFat.clusterIndex p block)
  unfold FakeFat.readOwner
  rw [h.clusterIndex]
  cases hp : getFileByCluster p (FakeFat.clusterIndex p block) [] p.tree with
  | none =>
    rw [hp, map_none, map_eq_none_iff] at hfind
    rw [hfind]
    exact .inl ⟨rfl, rfl⟩
  | some o =>
    rw [hp, map_some, map_eq_some_iff] at hfind
    obtain ⟨o', hq, heq⟩ := hfind
    have hfile : o'.file.hide unread = o.file.hide unread := congrArg Owner.file heq
    have hattr : o'.file.attr = o.file.attr := by
      have := congrArg Node.attr hfile
      rwa [Node.hide_attr, Node.hide_attr] at this
    rw [hq, filter_some, filter_some, hattr]
    by_cases hread : o.file.attr &&& attrWriteonly = 0
    · rw [if_pos (decide_eq_true hread), if_pos (decide_eq_true hread)]
      refine .inr ⟨o, o', rfl, rfl, ?_, heq⟩
      have hkeep : ∀ f : Node, f.attr &&& attrWriteonly = 0 → f.hide unread = f := by
        intro f hf
        simp [Node.hide, unread, hf]
      rwa [hkeep _ (hattr ▸ hread), hkeep _ hread] at hfile
    · rw [if_neg (by simpa using hread), if_neg (by simpa using hread)]
      exact .inl ⟨rfl, rfl⟩

theorem Alike.dataRead (h : Alike p q) (page block : UInt32) (buff : List UInt8) :
    (FakeFat.dataRead q page block buff).1 = (FakeFat.dataRead p page block buff).1 ∧
      (FakeFat.dataRead q page block buff).2.1 = (FakeFat.dataRead p page block buff).2.1 := by
  unfold FakeFat.dataRead
  rcases h.readOwner block with ⟨hq, hp⟩ | ⟨o, o', hq, hp, hfile, heq⟩
  · rw [hq, hp]
    exact ⟨rfl, rfl⟩
  rw [hq, hp]
  dsimp only
  rw [hfile, h.addrOffset]
  cases if o.file.isDir then none else o.file.buff with
  | some d => exact ⟨rfl, rfl⟩
  | none =>
    match o.file.cb with
    | .dir =>
      have hdir : ∀ addr, (dirRead o'.file o'.up o'.child addr page).1 = (dirRead o.file o.up o.child addr page).1 ∧
          (dirRead o'.file o'.up o'.child addr page).2.1 = (dirRead o.file o.up o.child addr page).2.1 := by
        intro addr
        have hp := dirRead_hide unread o.file o.up o.child addr page
        have hq := dirRead_hide unread o'.file o'.up o'.child addr page
        have hparts : o'.file.hide unread = o.file.hide unread ∧ o'.child.hide unread = o.child.hide unread ∧
            o'.up.map (Node.hide unread) = o.up.map (Node.hide unread) :=
          ⟨congrArg Owner.file heq, congrArg Owner.child heq, congrArg Owner.up heq⟩
        rw [hparts.1, hparts.2.1, hparts.2.2, hp] at hq
        exact ⟨(congrArg (fun r => r.1) hq).symm, (congrArg (fun r => r.2.1) hq).symm⟩
      rw [hfile] at hdir
      obtain ⟨herr, hbytes⟩ := hdir (FakeFat.addrOffset p o.file block).toUInt64
      rw [herr, hbytes]
      exact ⟨rfl, rfl⟩
    | .user (some read) _ => exact ⟨rfl, rfl⟩
    | .user none _ => exact ⟨rfl, rfl⟩

/-- **Alike volumes read the same.** -/
theorem Alike.malRead (h : Alike m.param m'.param) (hm : Sectors m) (hsize : m'.blockSize = m.blockSize) (addr : UInt64)
    (hbuff : buff.length = m.pageSize.toNat) : (FakeFat.malRead m' addr buff).1 = (FakeFat.malRead m addr buff).1 ∧
      (FakeFat.malRead m' addr buff).2.1 = (FakeFat.malRead m addr buff).2.1 := by
  have hpage : m'.pageSize = m.pageSize := by rw [Mal.pageSize, hsize, Mal.pageSize]
  have hblock : m'.blockAddr addr = m.blockAddr addr := by rw [Mal.blockAddr, hpage, Mal.blockAddr]
  unfold FakeFat.malRead
  rw [hpage, hblock, h.sysRead _ hm.pageSize hbuff]
  split
  · exact ⟨rfl, rfl⟩
  · exact h.dataRead _ _ _

/-! ### The boot sector that is written back -/

/-- The fields that `fakefat32_mal_read` puts into the boot sector. -/
def bootFields (p : Param) (b : List UInt8) : List UInt8 :=
  let b := LE.put b 0x0B (LE.bytes16 p.sectorSize)
  let b := LE.put b 0x0D [p.sectorsPerCluster]
  let b := LE.put b 0x20 (LE.bytes32 p.sectorNumber)
  let b := LE.put b 0x24 (LE.bytes32 (calcFatSectors p))
  LE.put b 0x43 (LE.bytes32 p.volumeId)

theorem bootFields_puts (p : Param) : ∃ field : ℕ → Option UInt8, LE.Puts 0x47 (bootFields p) field ∧
    ∀ j ∈ [0x0E, 0x0F, 0x10, 0x1C, 0x1D, 0x1E, 0x1F, 0x2C, 0x2D, 0x2E, 0x2F, 0x30, 0x32, 0x33], field j = none := by
  refine ⟨_, ((((LE.puts_put (by simp)).comp (LE.puts_put (by simp))).comp (LE.puts_put (by simp))).comp
    (LE.puts_put (by simp))).comp (LE.puts_put (by simp)), ?_⟩
  intro j hj
  fin_cases hj <;> rfl

theorem bootSector_eq (p : Param) (buff : List UInt8) : bootSector p buff = bootFields p (LE.put buff 0 p.mbr) := rfl

theorem getElem?_bootSector {field : ℕ → Option UInt8} (hf : LE.Puts 0x47 (bootFields p) field) (hmbr : p.mbr.length = 512)
    (hbuff : 512 ≤ buff.length) (j : ℕ) : (bootSector p buff)[j]? = (field j).or (if j < 512 then p.mbr[j]? else buff[j]?) := by
  have hlen : (LE.put buff 0 p.mbr).length = buff.length := LE.length_put (by omega)
  rw [bootSector_eq, hf.get _ (by omega), LE.getElem?_put (by omega), hmbr]
  simp

theorem getElem?_bytesAt_zero {d : List UInt8} {n j : ℕ} (hn : n ≤ d.length) : (bytesAt d 0 n)[j]? = if j < n then d[j]? else none := by
  split_ifs with hj
  · rw [getElem?_bytesAt d 0 hj, zero_add, getD_eq_getElem _ _ (by omega), getElem?_eq_getElem (by omega)]
  · rw [getElem?_eq_none]
    rw [bytesAt_length]
    omega

/-- A boot sector in which at most the fields are others makes the same volume. -/
theorem alike_mbr {mbr : List UInt8} {field : ℕ → Option UInt8} (hb : Boot p) (hs : 512 ≤ p.sectorSize.toNat)
    (hf : LE.Puts 0x47 (bootFields p) field)
    (hnone : ∀ j ∈ [0x0E, 0x0F, 0x10, 0x1C, 0x1D, 0x1E, 0x1F, 0x2C, 0x2D, 0x2E, 0x2F, 0x30, 0x32, 0x33], field j = none)
    (hlen : mbr.length = 512) (hmbr : ∀ j < 512, mbr[j]? = (field j).or p.mbr[j]?) : Alike p { p with mbr } := by
  -- a byte that is no field is the one of before
  have hget : ∀ j ∈ [0x0E, 0x0F, 0x10, 0x1C, 0x1D, 0x1E, 0x1F, 0x2C, 0x2D, 0x2E, 0x2F, 0x30, 0x32, 0x33],
      LE.get8 mbr j = LE.get8 p.mbr j := by
    intro j hj
    have hj512 : j < 512 := by
      fin_cases hj <;> decide
    rw [LE.get8_eq_getElem?, hmbr j hj512, hnone j hj, none_or, LE.get8_eq_getElem?]
  have hboot : Boot { p with mbr } := by
    constructor
    · exact hlen
    · refine Eq.trans ?_ hb.res
      simp only [resSectors, LE.get16, hget 0x0E (by decide), hget 0x0F (by decide)]
    · refine Eq.trans ?_ hb.num
      simp only [fatNum, hget 0x10 (by decide)]
    · refine Eq.trans ?_ hb.hidden
      simp only [hiddenSectors, LE.get32, hget 0x1C (by decide), hget 0x1D (by decide), hget 0x1E (by decide), hget 0x1F (by decide)]
    · refine Eq.trans ?_ hb.root
      simp only [rootCluster, LE.get32, hget 0x2C (by decide), hget 0x2D (by decide), hget 0x2E (by decide), hget 0x2F (by decide)]
    · refine Eq.trans ?_ hb.info
      simp only [fsinfoSector, hget 0x30 (by decide)]
    · refine Eq.trans ?_ hb.backup
      simp only [backupSector, LE.get16, hget 0x32 (by decide), hget 0x33 (by decide)]
  have hfat : calcFatSectors { p with mbr } = calcFatSectors p := by
    unfold calcFatSectors
    rw [hboot.root, hb.root]
  have hfields : bootFields { p with mbr } = bootFields p := by
    funext b
    unfold bootFields
    rw [hfat]
  refine ⟨rfl, rfl, rfl, rfl, hb, hboot, fun buff hbuff => ?_, rfl⟩
  apply ext_getElem?
  intro j
  have hf' : LE.Puts 0x47 (bootFields { p with mbr }) field := by rwa [hfields]
  rw [getElem?_bootSector hf' hlen (by omega), getElem?_bootSector hf hb.length (by omega)]
  split_ifs with hj
  · rw [hmbr j hj, ← Option.or_assoc, Option.or_self]
  · rfl

/-- **The boot sector that was read is written back**: the volume is the same. -/
theorem alike_boot (hb : Boot p) (hs : 512 ≤ p.sectorSize.toNat) (hbuff : 512 ≤ buff.length) :
    Alike p { p with mbr := bytesAt (bootSector p buff) 0 512 } := by
  obtain ⟨field, hf, hnone⟩ := bootFields_puts p
  have hboot : (bootSector p buff).length = buff.length := by
    have hlen : (LE.put buff 0 p.mbr).length = buff.length := LE.length_put (by rw [hb.length]; omega)
    rw [bootSector_eq, hf.length _ (by omega), hlen]
  refine alike_mbr hb hs hf hnone (bytesAt_length _ _ _) fun j hj => ?_
  rw [getElem?_bytesAt_zero (by omega), if_pos hj, getElem?_bootSector hf hb.length hbuff, if_pos hj]

end FakeFat
end Vsf
