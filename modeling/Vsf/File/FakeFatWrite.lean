/-
# A FAT32 volume that is never stored: writing a sector

`fakefat32_mal_write` takes a new boot sector, bytes of a file, and the size, first cluster and
record of the files it knows in a sector of a directory. `(uint32_t)addr / page_size` cuts the
address before it divides, so the sectors are told apart exactly if the last one begins below 4 GiB
(`addressed_iff`).
-/
import Mathlib
import Vsf.File.Dentry
import Vsf.File.FakeFatVolume

namespace Vsf
namespace FakeFat

open File ByteMem Option

/-! ### A directory -/

/-- `!strcmp`, with the string at `a`. -/
def strcmpEq (m : Mem) : List UInt8 → ℕ → Bool
  | [], a => m a == 0
  | c :: cs, a => m a == c && strcmpEq m cs (a + 1)

/-- The 15 bytes of a record. -/
def recordOf (b : List UInt8) : Record where
  crtTimeTenth := LE.get8 b 0
  crtTime := LE.get16 b 1
  crtData := LE.get16 b 3
  lstAccData := LE.get16 b 5
  fstClusHI := LE.get16 b 7
  wrtTime := LE.get16 b 9
  wrtData := LE.get16 b 11
  fstClusLO := LE.get16 b 13

/-- `want_first_cluster`, which has 16 bits. -/
def wantCluster (entry : List UInt8) : UInt16 := ((LE.get16 entry 26).toUInt32 + (LE.get16 entry 20).toUInt32 <<< 16).toUInt16

/-- The file with what the host wrote in its entry. -/
def Node.fromEntry (f : Node) (entry : List UInt8) : Node :=
  { f with
    size := if f.isDir then f.size else (LE.get32 entry 28).toUInt64
    firstCluster := (wantCluster entry).toUInt32
    record := recordOf (entry.drop 13) }

/-- The first file with the name at `filename` gets the entry. -/
def writeMatch (m : Mem) (filename : ℕ) (entry : List UInt8) : Files → Files
  | .nil => .nil
  | .cons f child next =>
    if strcmpEq m f.name filename then .cons (f.fromEntry entry) child next
    else .cons f child (writeMatch m filename entry next)

/-- The loop of `fakefat32_dir_write`; `n` bounds the number of files. -/
def dirWriteLoop : ℕ → Dparser → Files → Files
  | 0, _, files => files
  | n + 1, d, files =>
    if d.entryNum = 0 then files
    else
      let r := parseDentry d
      if r.1 then dirWriteLoop n r.2.next (writeMatch r.2.mem r.2.filename (entryBytes r.2.mem r.2.entry) files) else files

/-- `fakefat32_dir_write`: the name goes over the start of the sector. -/
def dirWrite (child : Files) (buff : List UInt8) (page : UInt32) : Files :=
  let entryNum := (page >>> 5).toUInt16
  dirWriteLoop entryNum.toNat ⟨bufMem buff, 0, entryNum, 0, 0⟩ child

/-! ### `fakefat32_mal_write` -/

/-- `vsfile_memfs_write`. What goes behind the array is not modelled. -/
def memfsWrite (f : Node) (d : List UInt8) (offset : UInt64) (size : UInt32) (buff : List UInt8) : List UInt8 :=
  d.mapIdx fun i v => if offset.toNat ≤ i ∧ i < offset.toNat + memfsSize f offset size then LE.get8 buff (i - offset.toNat) else v

/-- The part of `fakefat32_mal_write` for the clusters. -/
def dataWrite (p : Param) (page block : UInt32) (buff : List UInt8) : File.Err × Param :=
  match (getFileByCluster p (clusterIndex p block) [] p.tree).filter fun o => o.file.attr &&& attrReadonly = 0 with
  | none => (.none, p)
  | some o =>
    let offset := addrOffset p o.file block
    match if o.file.isDir then none else o.file.buff with
    | some d =>
      let file := { o.file with buff := some (memfsWrite o.file d offset.toUInt64 page buff) }
      (.none, p.setTree (setByCluster p (clusterIndex p block) file o.child p.tree))
    | none =>
      match o.file.cb with
      | .dir => (.none, p.setTree (setByCluster p (clusterIndex p block) o.file (dirWrite o.child buff page) p.tree))
      | .user _ (some write) => (write offset buff, p)
      | .user _ none => (.none, p)

/-- `fakefat32_mal_write`. -/
def malWrite (m : Mal) (addr : UInt64) (buff : List UInt8) : File.Err × Mal :=
  let p := m.param
  let block := m.blockAddr addr
  if block < sysSectors p then
    if block = hiddenSectors p ∨ block = hiddenSectors p + backupSector p then
      (.none, { m with param := { p with mbr := bytesAt buff 0 512 } })
    else (.none, m)
  else
    let r := dataWrite p m.pageSize block buff
    (r.1, { m with param := r.2 })

/-! ### What a write leaves as it is -/

/-- The file is the same but for its memory. -/
def Node.SameButData (f f' : Node) : Prop := f' = { f with buff := f'.buff }

/-- The file is the same but for what is in its entry. -/
def Node.SameButEntry (f f' : Node) : Prop := f' = { f with size := f'.size, firstCluster := f'.firstCluster, record := f'.record }

/-- The files of the array are the same but for what is in their entries. -/
def EntriesOnly : Files → Files → Prop
  | .nil, .nil => True
  | .cons f child next, .cons f' child' next' => f.SameButEntry f' ∧ child' = child ∧ EntriesOnly next next'
  | _, _ => False

/-- The same tree but for the cluster's owner: its memory, or its entries. -/
def OwnerOnly (p : Param) (cluster : UInt32) : Files → Files → Prop
  | .nil, .nil => True
  | .cons f child next, .cons f' child' next' =>
    if f.firstCluster ≤ cluster ∧ cluster < f.firstCluster + fileClusters p f then
      f.SameButData f' ∧ EntriesOnly child child' ∧ next' = next
    else f' = f ∧ OwnerOnly p cluster child child' ∧ OwnerOnly p cluster next next'
  | _, _ => False

variable {p : Param} {f : Node} {cluster page block : UInt32} {buff : List UInt8}

theorem EntriesOnly.refl : ∀ files : Files, EntriesOnly files files
  | .nil => trivial
  | .cons _ _ next => ⟨rfl, rfl, EntriesOnly.refl next⟩

theorem EntriesOnly.trans : ∀ {a b c : Files}, EntriesOnly a b → EntriesOnly b c → EntriesOnly a c
  | .nil, .nil, .nil, _, _ => trivial
  | .cons f _ _, .cons g _ _, .cons h _ _, ⟨h1, h2, h3⟩, ⟨k1, k2, k3⟩ => by
    refine ⟨?_, k2.trans h2, h3.trans k3⟩
    rw [Node.SameButEntry, k1, h1]

theorem OwnerOnly.refl (p : Param) (cluster : UInt32) : ∀ files : Files, OwnerOnly p cluster files files
  | .nil => trivial
  | .cons f child next => by
    unfold OwnerOnly
    split_ifs
    · exact ⟨rfl, EntriesOnly.refl child, rfl⟩
    · exact ⟨rfl, OwnerOnly.refl p cluster child, OwnerOnly.refl p cluster next⟩

theorem writeMatch_entriesOnly (m : Mem) (filename : ℕ) (entry : List UInt8) :
    ∀ files : Files, EntriesOnly files (writeMatch m filename entry files)
  | .nil => trivial
  | .cons f child next => by
    unfold writeMatch
    split_ifs
    · exact ⟨rfl, rfl, EntriesOnly.refl next⟩
    · exact ⟨rfl, rfl, writeMatch_entriesOnly m filename entry next⟩

theorem dirWriteLoop_entriesOnly : ∀ (n : ℕ) (d : Dparser) (files : Files), EntriesOnly files (dirWriteLoop n d files)
  | 0, _, files => EntriesOnly.refl files
  | n + 1, d, files => by
    unfold dirWriteLoop
    split_ifs
    · exact EntriesOnly.refl files
    · dsimp only
      split_ifs
      · exact (writeMatch_entriesOnly _ _ _ files).trans (dirWriteLoop_entriesOnly n _ _)
      · exact EntriesOnly.refl files

/-- The directories above only say where the search began. -/
theorem getFileByCluster_up (p : Param) (cluster : UInt32) : ∀ (fs : Files) (up : List Node),
    getFileByCluster p cluster up fs = (getFileByCluster p cluster [] fs).map fun o => { o with up := o.up ++ up }
  | .nil, _ => rfl
  | .cons f child next, up => by
    unfold getFileByCluster
    split_ifs
    · rfl
    · rw [getFileByCluster_up p cluster child (f :: up), getFileByCluster_up p cluster child [f]]
      cases getFileByCluster p cluster [] child with
      | none => exact getFileByCluster_up p cluster next up
      | some o => simp
    · exact getFileByCluster_up p cluster next up

theorem setByCluster_ownerOnly {file : Node} {files : Files} : ∀ (fs : Files) (o : Owner), getFileByCluster p cluster [] fs = some o →
    o.file.SameButData file → EntriesOnly o.child files → OwnerOnly p cluster fs (setByCluster p cluster file files fs)
  | .nil, _, ho, _, _ => nomatch ho
  | .cons f child next, o, ho, hfile, hfiles => by
    unfold getFileByCluster at ho
    unfold setByCluster
    by_cases hf : f.firstCluster ≤ cluster ∧ cluster < f.firstCluster + fileClusters p f
    · rw [if_pos hf] at ho ⊢
      obtain rfl : ⟨f, child, []⟩ = o := some.inj ho
      unfold OwnerOnly
      rw [if_pos hf]
      exact ⟨hfile, hfiles, rfl⟩
    rw [if_neg hf] at ho ⊢
    have hchild : (if f.isDir then getFileByCluster p cluster [f] child else none) =
        (if f.isDir then getFileByCluster p cluster [] child else none).map fun o => { o with up := o.up ++ [f] } := by
      split_ifs
      · exact getFileByCluster_up p cluster child [f]
      · rfl
    rw [hchild] at ho
    cases hc : if f.isDir then getFileByCluster p cluster [] child else none with
    | none =>
      rw [hc] at ho
      unfold OwnerOnly
      rw [if_neg hf]
      exact ⟨rfl, OwnerOnly.refl p cluster child, setByCluster_ownerOnly next o ho hfile hfiles⟩
    | some o' =>
      rw [hc] at ho
      obtain rfl : { o' with up := o'.up ++ [f] } = o := some.inj ho
      have ho' : getFileByCluster p cluster [] child = some o' := by
        split_ifs at hc
        exact hc
      unfold OwnerOnly
      rw [if_neg hf]
      exact ⟨rfl, setByCluster_ownerOnly child o' ho' hfile hfiles, OwnerOnly.refl p cluster next⟩

theorem setByCluster_root (p : Param) (cluster : UInt32) (file : Node) (files : Files) :
    (p.setTree (setByCluster p cluster file files p.tree)).tree = setByCluster p cluster file files p.tree := by
  unfold Param.tree setByCluster
  split_ifs
  · rfl
  · split
    · rfl
    · rfl
  · rfl

/-- A write to the clusters changes their owner only. -/
theorem dataWrite_ownerOnly (p : Param) (page block : UInt32) (buff : List UInt8) : ∃ tree, (dataWrite p page block buff).2 = p.setTree tree ∧
    (p.setTree tree).tree = tree ∧ OwnerOnly p (clusterIndex p block) p.tree tree := by
  have hkeep : ∃ tree, p = p.setTree tree ∧ (p.setTree tree).tree = tree ∧ OwnerOnly p (clusterIndex p block) p.tree tree :=
    ⟨p.tree, rfl, rfl, OwnerOnly.refl p _ p.tree⟩
  have hset : ∀ {o : Owner} {file : Node} {files : Files}, getFileByCluster p (clusterIndex p block) [] p.tree = some o →
      o.file.SameButData file → EntriesOnly o.child files →
      ∃ tree, p.setTree (setByCluster p (clusterIndex p block) file files p.tree) = p.setTree tree ∧ (p.setTree tree).tree = tree ∧
        OwnerOnly p (clusterIndex p block) p.tree tree :=
    fun ho h h' => ⟨_, rfl, setByCluster_root p _ _ _, setByCluster_ownerOnly p.tree _ ho h h'⟩
  unfold dataWrite
  cases ho : (getFileByCluster p (clusterIndex p block) [] p.tree).filter fun o => o.file.attr &&& attrReadonly = 0 with
  | none => exact hkeep
  | some o =>
    obtain ⟨ho, -⟩ := filter_eq_some_iff.mp ho
    dsimp only
    split
    · exact hset ho rfl (EntriesOnly.refl _)
    · split
      · exact hset ho rfl (dirWriteLoop_entriesOnly _ _ _)
      · exact hkeep
      · exact hkeep

/-! ### The sectors of a volume -/

/-- `fakefat32_mal_read`, for the sector with a number. -/
def readSector (m : Mal) (block : UInt32) (buff : List UInt8) : File.Err × List UInt8 × Mal :=
  match sysRead m.param m.pageSize block buff with
  | some buff => (.none, buff, m)
  | none =>
    let r := dataRead m.param m.pageSize block buff
    (r.1, r.2.1, { m with param := r.2.2 })

/-- `fakefat32_mal_write`, for the sector with a number. -/
def writeSector (m : Mal) (block : UInt32) (buff : List UInt8) : File.Err × Mal :=
  let p := m.param
  if block < sysSectors p then
    if block = hiddenSectors p ∨ block = hiddenSectors p + backupSector p then
      (.none, { m with param := { p with mbr := bytesAt buff 0 512 } })
    else (.none, m)
  else
    let r := dataWrite p m.pageSize block buff
    (r.1, { m with param := r.2 })

/-- The volume of `p`, after any reads and writes. -/
inductive Runs (p : Param) : Mal → Prop
  | start : Runs p (malInit p)
  | read {m : Mal} (addr : UInt64) (buff : List UInt8) : Runs p m → Runs p (malRead m addr buff).2.2
  | write {m : Mal} (addr : UInt64) (buff : List UInt8) : Runs p m → Runs p (malWrite m addr buff).2

/-- A sector's address below the capacity. -/
structure Mal.InRange (m : Mal) (addr : UInt64) : Prop where
  aligned : m.blockSize.toNat ∣ addr.toNat
  below : addr.toNat < m.blockSize.toNat * m.blockNum.toNat

/-- The number of the sector at an address. -/
def Mal.sector (m : Mal) (addr : UInt64) : UInt32 := UInt32.ofNat (addr.toNat / m.blockSize.toNat)

/-- Two sectors have two numbers, and a write to the clusters changes only their owner. -/
structure Addressed (m : Mal) : Prop where
  number : ∀ addr, m.InRange addr → (m.blockAddr addr).toNat = addr.toNat / m.blockSize.toNat
  read : ∀ addr buff, m.InRange addr → malRead m addr buff = readSector m (m.sector addr) buff
  write : ∀ addr buff, m.InRange addr → malWrite m addr buff = writeSector m (m.sector addr) buff
  apart : ∀ addr addr', m.InRange addr → m.InRange addr' → addr ≠ addr' → m.blockAddr addr ≠ m.blockAddr addr'
  data : ∀ addr buff, m.InRange addr → (sysSectors m.param).toNat ≤ addr.toNat / m.blockSize.toNat →
    (malWrite m addr buff).2.param.mbr = m.param.mbr ∧
      OwnerOnly m.param (clusterIndex m.param (m.sector addr)) m.param.tree (malWrite m addr buff).2.param.tree

/-- What every read and write leaves of the volume. -/
structure Volume (p : Param) (m : Mal) : Prop where
  size : m.blockSize = p.sectorSize.toUInt64
  num : m.blockNum = (p.sectorNumber + hiddenSectors p).toUInt64

variable {m : Mal}

theorem Runs.volume (h : Runs p m) : Volume p m := by
  induction h with
  | start => exact ⟨rfl, rfl⟩
  | read addr buff _ ih =>
    unfold malRead
    split
    · exact ih
    · exact ⟨ih.size, ih.num⟩
  | write addr buff _ ih =>
    unfold malWrite
    dsimp only
    split_ifs
    · exact ⟨ih.size, ih.num⟩
    · exact ih
    · exact ⟨ih.size, ih.num⟩

theorem Volume.toNat (h : Volume p m) : m.blockSize.toNat = p.sectorSize.toNat ∧ m.pageSize.toNat = p.sectorSize.toNat ∧
    m.blockNum.toNat = (p.sectorNumber + hiddenSectors p).toNat := by
  have hlt := p.sectorSize.toNat_lt
  refine ⟨?_, ?_, ?_⟩
  · rw [h.size, UInt16.toNat_toUInt64]
  · rw [Mal.pageSize, h.size, UInt64.toNat_toUInt32, UInt16.toNat_toUInt64]
    exact Nat.mod_eq_of_lt (by omega)
  · rw [h.num, UInt32.toNat_toUInt64]

theorem Volume.blockAddr_toNat (h : Volume p m) (addr : UInt64) :
    (m.blockAddr addr).toNat = addr.toNat % 2 ^ 32 / m.blockSize.toNat := by
  rw [Mal.blockAddr, UInt32.toNat_div, UInt64.toNat_toUInt32, h.toNat.1, h.toNat.2.1]

theorem Volume.sector_toNat (h : Volume p m) {addr : UInt64} (ha : m.InRange addr) :
    (m.sector addr).toNat = addr.toNat / m.blockSize.toNat := by
  have hlt := (p.sectorNumber + hiddenSectors p).toNat_lt
  have hbelow := ha.below
  rw [Mal.sector, UInt32.toNat_ofNat']
  apply Nat.mod_eq_of_lt
  apply (Nat.div_lt_of_lt_mul hbelow).trans
  rw [h.toNat.2.2]
  exact hlt

theorem Volume.addressed (h : Volume p m) (hcut : ∀ addr, m.InRange addr → addr.toNat < 2 ^ 32) : Addressed m := by
  have hnum : ∀ addr, m.InRange addr → (m.blockAddr addr).toNat = addr.toNat / m.blockSize.toNat := by
    intro addr ha
    rw [h.blockAddr_toNat, Nat.mod_eq_of_lt (hcut addr ha)]
  have hsector : ∀ addr, m.InRange addr → m.blockAddr addr = m.sector addr := by
    intro addr ha
    apply UInt32.toNat_inj.mp
    rw [hnum addr ha, h.sector_toNat ha]
  constructor
  · exact hnum
  · intro addr buff ha
    rw [← hsector addr ha]
    rfl
  · intro addr buff ha
    rw [← hsector addr ha]
    rfl
  · intro addr addr' ha ha' hne heq
    apply hne
    apply UInt64.toNat_inj.mp
    have hdiv : addr.toNat / m.blockSize.toNat = addr'.toNat / m.blockSize.toNat := by
      rw [← hnum addr ha, ← hnum addr' ha', heq]
    calc addr.toNat = m.blockSize.toNat * (addr.toNat / m.blockSize.toNat) := (Nat.mul_div_cancel' ha.aligned).symm
      _ = m.blockSize.toNat * (addr'.toNat / m.blockSize.toNat) := by rw [hdiv]
      _ = addr'.toNat := Nat.mul_div_cancel' ha'.aligned
  · intro addr buff ha hdata
    have hge : ¬ m.blockAddr addr < sysSectors m.param := by
      rw [UInt32.lt_iff_toNat_lt, hnum addr ha]
      exact not_lt.mpr hdata
    obtain ⟨tree, hwrite, htree, howner⟩ := dataWrite_ownerOnly m.param m.pageSize (m.blockAddr addr) buff
    unfold malWrite
    dsimp only
    rw [if_neg hge, hwrite, ← hsector addr ha]
    rw [htree]
    refine ⟨?_, howner⟩
    cases tree with
    | nil => rfl
    | cons root child next => rfl

/-- **Sectors are told apart exactly if the last one begins below 4 GiB.** -/
theorem addressed_iff {m : Mal} (hsize : 0 < p.sectorSize) (h : Runs p m) :
    Addressed m ↔ p.sectorSize.toNat * ((p.sectorNumber + hiddenSectors p).toNat - 1) < 2 ^ 32 := by
  have hv := h.volume
  obtain ⟨hbs, -, hbn⟩ := hv.toNat
  have hss := p.sectorSize.toNat_lt
  have hpos : 0 < p.sectorSize.toNat := UInt16.lt_iff_toNat_lt.mp hsize
  have hn := (p.sectorNumber + hiddenSectors p).toNat_lt
  constructor
  · intro ha
    by_contra hlarge
    have hn0 : 0 < (p.sectorNumber + hiddenSectors p).toNat := by
      by_contra h0
      rw [Nat.eq_zero_of_not_pos h0, Nat.zero_sub, Nat.mul_zero] at hlarge
      exact hlarge (by decide)
    -- the address of the last sector
    have hmul : p.sectorSize.toNat * ((p.sectorNumber + hiddenSectors p).toNat - 1) < 2 ^ 16 * 2 ^ 32 :=
      Nat.mul_lt_mul'' hss (by omega)
    have haddr : (UInt64.ofNat (p.sectorSize.toNat * ((p.sectorNumber + hiddenSectors p).toNat - 1))).toNat =
        p.sectorSize.toNat * ((p.sectorNumber + hiddenSectors p).toNat - 1) :=
      UInt64.toNat_ofNat_of_lt (hmul.trans (by decide))
    have hin : m.InRange (UInt64.ofNat (p.sectorSize.toNat * ((p.sectorNumber + hiddenSectors p).toNat - 1))) := by
      constructor
      · rw [haddr, hbs]
        exact dvd_mul_right _ _
      · rw [haddr, hbs, hbn]
        exact mul_lt_mul_of_pos_left (by omega) hpos
    have hnum := ha.number _ hin
    rw [hv.blockAddr_toNat, haddr, hbs, Nat.mul_div_cancel_left _ hpos] at hnum
    have hcut : p.sectorSize.toNat * ((p.sectorNumber + hiddenSectors p).toNat - 1) % 2 ^ 32 <
        p.sectorSize.toNat * ((p.sectorNumber + hiddenSectors p).toNat - 1) :=
      (Nat.mod_lt _ (by decide)).trans_le (not_lt.mp hlarge)
    have := Nat.div_lt_of_lt_mul hcut
    omega
  · intro hsmall
    apply hv.addressed
    intro addr ha
    obtain ⟨k, hk⟩ := ha.aligned
    have hbelow := ha.below
    rw [hk, hbs, hbn] at hbelow
    rw [hk, hbs]
    have hk' := Nat.lt_of_mul_lt_mul_left hbelow
    exact (Nat.mul_le_mul_left _ (by omega)).trans_lt hsmall

theorem addressed_small : Addressed (malRead (malInit smallVolume) 0 (List.replicate 512 0)).2.2 :=
  (addressed_iff (by decide) (.read 0 _ .start)).mpr (by decide)

/-- A volume of 8 GiB: 2^24 sectors of 512 bytes, 8 in a cluster. -/
def bigVolume : Param :=
  { smallVolume with sectorNumber := 16777216, sectorsPerCluster := 8 }

/-- The first sector behind the partition table, plus 4 GiB. -/
def bigAddr : UInt64 := 4295000064

theorem malWrite_boot {addr : UInt64} (hsys : m.blockAddr addr < sysSectors m.param)
    (hboot : m.blockAddr addr = hiddenSectors m.param) (buff : List UInt8) :
    (malWrite m addr buff).2.param.mbr = bytesAt buff 0 512 := by
  unfold malWrite
  rw [if_pos hsys, if_pos (.inl hboot)]

theorem bytesAt_zeros (n : ℕ) : bytesAt (List.replicate n 0) 0 n = List.replicate n 0 := by
  refine List.eq_replicate_iff.mpr ⟨bytesAt_length _ _ _, fun b hb => ?_⟩
  obtain ⟨k, -, rfl⟩ := List.mem_map.mp hb
  simp

/-- **Behind 4 GiB** zeros written to a cluster are the new boot sector. -/
theorem malWrite_aliases : (malInit bigVolume).InRange bigAddr ∧
    (sysSectors (malInit bigVolume).param).toNat ≤ bigAddr.toNat / (malInit bigVolume).blockSize.toNat ∧
    (malWrite (malInit bigVolume) bigAddr (List.replicate 512 0)).2.param.mbr = List.replicate 512 0 ∧
    ¬ Addressed (malInit bigVolume) := by
  have hin : (malInit bigVolume).InRange bigAddr := ⟨by decide +kernel, by decide +kernel⟩
  have hdata : (sysSectors (malInit bigVolume).param).toNat ≤ bigAddr.toNat / (malInit bigVolume).blockSize.toNat := by
    decide +kernel
  have hblock : (malInit bigVolume).blockAddr bigAddr < sysSectors (malInit bigVolume).param ∧
      (malInit bigVolume).blockAddr bigAddr = hiddenSectors (malInit bigVolume).param := by
    decide +kernel
  have hmbr : (malWrite (malInit bigVolume) bigAddr (List.replicate 512 0)).2.param.mbr = List.replicate 512 0 := by
    rw [malWrite_boot hblock.1 hblock.2]
    exact bytesAt_zeros 512
  refine ⟨hin, hdata, hmbr, fun h => ?_⟩
  have hkeep := (h.data bigAddr (List.replicate 512 0) hin hdata).1
  rw [hmbr] at hkeep
  have hhead := congrArg (fun b => LE.get8 b 0) hkeep
  exact absurd hhead (by decide +kernel)

end FakeFat
end Vsf
