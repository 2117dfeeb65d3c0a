/-
# A FAT32 volume that is never stored: a sector is written back

A host reads a sector and writes it back as it was. `Harmless` says that this changes no file but
for the memory of a write-only one, and nothing that is read later: so for the sectors in front of
the clusters (`harmless_front`) and for those of files (`harmless_file`).
-/
import Mathlib
import Vsf.File.DentryInPlace
import Vsf.File.DentryCodec
import Vsf.File.FakeFatAlike

namespace Vsf
namespace FakeFat

open File ByteMem List Option

variable {p : Param} {m : Mal} {o : Owner} {c page block : UInt32} {buff : List UInt8}

/-! ### The owner of a cluster -/

section Owner
variable {f file : Node} {child next files : Files} {o' : Owner}

/-- The first file of an array has the cluster. -/
abbrev Here (p : Param) (c : UInt32) (f : Node) : Prop := f.firstCluster ≤ c ∧ c < f.firstCluster + fileClusters p f

theorem set_here (h : Here p c f) : setByCluster p c file files (.cons f child next) = .cons file files next := by
  rw [setByCluster, if_pos h]

theorem set_child (h : ¬ Here p c f) (hd : f.isDir) (hc : getFileByCluster p c [] child = some o') :
    setByCluster p c file files (.cons f child next) = .cons f (setByCluster p c file files child) next := by
  rw [setByCluster, if_neg h, if_pos hd, hc]

theorem set_next (h : ¬ Here p c f) (hc : f.isDir → getFileByCluster p c [] child = none) :
    setByCluster p c file files (.cons f child next) = .cons f child (setByCluster p c file files next) := by
  rw [setByCluster, if_neg h]
  by_cases hd : f.isDir
  · rw [if_pos hd, hc hd]
  · rw [if_neg hd]

theorem get_here (h : Here p c f) : getFileByCluster p c [] (.cons f child next) = some ⟨f, child, []⟩ := by
  rw [getFileByCluster, if_pos h]

theorem get_child (h : ¬ Here p c f) (hd : f.isDir) (hc : getFileByCluster p c [] child = some o') :
    getFileByCluster p c [] (.cons f child next) = some { o' with up := o'.up ++ [f] } := by
  rw [getFileByCluster, if_neg h, if_pos hd, getFileByCluster_up p c child [f], hc]
  rfl

theorem get_next (h : ¬ Here p c f) (hc : f.isDir → getFileByCluster p c [] child = none) :
    getFileByCluster p c [] (.cons f child next) = getFileByCluster p c [] next := by
  rw [getFileByCluster, if_neg h]
  by_cases hd : f.isDir
  · rw [if_pos hd, getFileByCluster_up p c child [f], hc hd]
    rfl
  · rw [if_neg hd]

theorem get_cases (h : getFileByCluster p c [] (.cons f child next) = some o) :
    (Here p c f ∧ o = ⟨f, child, []⟩) ∨
    (¬ Here p c f ∧ f.isDir ∧ ∃ o', getFileByCluster p c [] child = some o' ∧ o = { o' with up := o'.up ++ [f] }) ∨
    (¬ Here p c f ∧ (f.isDir → getFileByCluster p c [] child = none) ∧ getFileByCluster p c [] next = some o) := by
  by_cases hf : Here p c f
  · rw [get_here hf] at h
    exact .inl ⟨hf, (some.inj h).symm⟩
  by_cases hc : f.isDir ∧ ∃ o', getFileByCluster p c [] child = some o'
  · obtain ⟨hd, o', ho'⟩ := hc
    rw [get_child hf hd ho'] at h
    exact .inr (.inl ⟨hf, hd, o', ho', (some.inj h).symm⟩)
  · have hnone : f.isDir → getFileByCluster p c [] child = none := by
      intro hd
      cases ho : getFileByCluster p c [] child with
      | none => rfl
      | some o' => exact absurd ⟨hd, o', ho⟩ hc
    rw [get_next hf hnone] at h
    exact .inr (.inr ⟨hf, hnone, h⟩)

theorem setByCluster_same : ∀ (fs : Files) (o : Owner), getFileByCluster p c [] fs = some o → setByCluster p c o.file o.child fs = fs
  | .nil, _, h => nomatch h
  | .cons f child next, o, h => by
    rcases get_cases h with ⟨hf, rfl⟩ | ⟨hf, hd, o', ho', rfl⟩ | ⟨hf, hnone, hnext⟩
    · exact set_here hf
    · rw [set_child hf hd ho', setByCluster_same child o' ho']
    · rw [set_next hf hnone, setByCluster_same next o hnext]

theorem getFileByCluster_set (files : Files) : ∀ (fs : Files) (o : Owner), getFileByCluster p c [] fs = some o →
    getFileByCluster p c [] (setByCluster p c o.file files fs) = some { o with child := files }
  | .nil, _, h => nomatch h
  | .cons f child next, o, h => by
    rcases get_cases h with ⟨hf, rfl⟩ | ⟨hf, hd, o', ho', rfl⟩ | ⟨hf, hnone, hnext⟩
    · rw [set_here hf, get_here hf]
    · rw [set_child hf hd ho', get_child hf hd (getFileByCluster_set files child o' ho')]
    · rw [set_next hf hnone, get_next hf hnone, getFileByCluster_set files next o hnext]

theorem setByCluster_set (files files' : Files) : ∀ (fs : Files) (o : Owner), getFileByCluster p c [] fs = some o →
    setByCluster p c o.file files' (setByCluster p c o.file files fs) = setByCluster p c o.file files' fs
  | .nil, _, h => nomatch h
  | .cons f child next, o, h => by
    rcases get_cases h with ⟨hf, rfl⟩ | ⟨hf, hd, o', ho', rfl⟩ | ⟨hf, hnone, hnext⟩
    · rw [set_here hf, set_here hf, set_here hf]
    · rw [set_child hf hd ho', set_child hf hd ho', set_child hf hd (getFileByCluster_set files child o' ho'),
        setByCluster_set files files' child o' ho']
    · rw [set_next hf hnone, set_next hf hnone, set_next hf hnone, setByCluster_set files files' next o hnext]

end Owner

/-! ### What is written back -/

/-- A write that changes files only in their memory, and nothing read later. -/
structure Harmless (m m' : Mal) : Prop where
  layout : m'.param.tree.hide (fun _ => true) = m.param.tree.hide fun _ => true
  reads : ∀ addr (buff : List UInt8), buff.length = m.pageSize.toNat →
    (malRead m' addr buff).1 = (malRead m addr buff).1 ∧ (malRead m' addr buff).2.1 = (malRead m addr buff).2.1

/-- The volume after the read of a sector, and after the same bytes were written. -/
def backRead (m : Mal) (addr : UInt64) (buff : List UInt8) : Mal := (malRead m addr buff).2.2

def backWrite (m : Mal) (addr : UInt64) (buff : List UInt8) : Mal := (malWrite (backRead m addr buff) addr (malRead m addr buff).2.1).2

theorem Harmless.refl (m : Mal) : Harmless m m := ⟨rfl, fun _ _ _ => ⟨rfl, rfl⟩⟩

theorem Alike.harmless {m m' : Mal} (h : Alike m.param m'.param) (hm : Sectors m) (hsize : m'.blockSize = m.blockSize)
    (hlayout : m'.param.tree.hide (fun _ => true) = m.param.tree.hide fun _ => true) : Harmless m m' :=
  ⟨hlayout, fun addr _ hbuff => h.malRead hm hsize addr hbuff⟩

variable {addr : UInt64}

theorem harmless_front (hm : Sectors m) (hbuff : buff.length = m.pageSize.toNat)
    (hblock : m.blockAddr addr < sysSectors m.param) : Harmless (backRead m addr buff) (backWrite m addr buff) := by
  have hs := hm.sector
  have hpage : m.pageSize.toNat = m.param.sectorSize.toNat := by rw [hm.pageSize, UInt16.toNat_toUInt32]
  obtain ⟨bytes, hbytes⟩ := sysRead_front m.pageSize hblock
  have hread : malRead m addr buff = (.none, bytes, m) := by
    rw [malRead, hbytes buff hbuff]
  rw [backWrite, backRead, hread]
  unfold malWrite
  rw [if_pos hblock]
  split_ifs with hboot
  · -- what was read is the boot sector
    have hhidden : ∀ a : UInt32, a = 64 ∨ a = 64 + 6 → ¬ (0 < (64 : UInt32) ∧ a = 0) ∧ ¬ (0 < (64 : UInt32) ∧ a < 64) := by
      rintro a (rfl | rfl) <;> decide
    have hbuff' : bytes = bootSector m.param (List.replicate m.pageSize.toNat 0) := by
      have h := hbytes (List.replicate m.pageSize.toNat 0) length_replicate
      unfold sysRead at h
      rw [if_pos hblock, put_zeros length_replicate, hm.boot.hidden, hm.boot.backup] at h
      rw [hm.boot.hidden, hm.boot.backup] at hboot
      obtain ⟨h1, h2⟩ := hhidden _ hboot
      rw [if_neg h1, if_neg h2, if_pos hboot] at h
      exact (some.inj h).symm
    have halike := alike_boot hm.boot hs (show 512 ≤ (List.replicate m.pageSize.toNat 0).length by rwa [length_replicate, hpage])
    rw [← hbuff'] at halike
    generalize bytesAt bytes 0 512 = mbr at halike ⊢
    exact halike.harmless hm rfl rfl
  · exact Harmless.refl m

/-! ### The memory of a file -/

theorem memfsWrite_read (f : Node) (d : List UInt8) (offset : UInt64) (hbuff : buff.length = page.toNat) :
    memfsWrite f d offset page (memfsRead f d offset page buff) = d := by
  have hle := memfsSize_le f offset page
  apply ext_getElem
  · rw [memfsWrite, length_mapIdx]
  · intro i h1 h2
    simp only [memfsWrite, getElem_mapIdx]
    split_ifs with hi
    · have hlen := bytesAt_length d offset.toNat (memfsSize f offset page)
      rw [memfsRead, LE.get8_eq_getElem?, LE.getElem?_put (by omega), if_pos (by omega), Nat.sub_zero, getElem?_bytesAt d _ (by omega),
        Nat.add_sub_cancel' hi.1, getD_some, getD_eq_getElem _ _ h2]
    · rfl

theorem setTree_fields (p : Param) (tree : Files) : (p.setTree tree).sectorSize = p.sectorSize ∧ (p.setTree tree).sectorNumber = p.sectorNumber ∧
    (p.setTree tree).sectorsPerCluster = p.sectorsPerCluster ∧ (p.setTree tree).diskId = p.diskId ∧
    (p.setTree tree).volumeId = p.volumeId ∧ (p.setTree tree).mbr = p.mbr := by
  cases tree <;> exact ⟨rfl, rfl, rfl, rfl, rfl, rfl⟩

theorem Boot.setTree (hb : Boot p) (tree : Files) : Boot (p.setTree tree) := by
  cases tree <;> exact ⟨hb.length, hb.res, hb.num, hb.hidden, hb.root, hb.info, hb.backup⟩

/-- Trees that are the same but for the memory of write-only files. -/
theorem alike_tree {tree : Files} (hb : Boot p) (htree : (p.setTree tree).tree = tree) (h : tree.hide unread = p.tree.hide unread) :
    Alike p (p.setTree tree) := by
  obtain ⟨hsize, hnum, hcluster, hdisk, hvol, hmbr⟩ := setTree_fields p tree
  refine ⟨hsize, hnum, hcluster, hdisk, hb, hb.setTree tree, fun buff _ => ?_, by rw [htree, h]⟩
  have hfat : calcFatSectors (p.setTree tree) = calcFatSectors p := by
    unfold calcFatSectors
    rw [hsize, hnum, hcluster, hb.root, (hb.setTree tree).root]
  unfold bootSector
  rw [hsize, hnum, hcluster, hvol, hmbr, hfat]

/-- The owner is a directory with entries. -/
def Owner.Entries (o : Owner) : Prop := (if o.file.isDir then none else o.file.buff) = none ∧ o.file.cb = .dir

/-- The sector's cluster. -/
def Mal.clusterAt (m : Mal) (addr : UInt64) : UInt32 := clusterIndex m.param (m.blockAddr addr)

/-- The owner of the sector's cluster. -/
def Mal.ownerAt (m : Mal) (addr : UInt64) : Option Owner := getFileByCluster m.param (m.clusterAt addr) [] m.param.tree

theorem malRead_clusters (buff : List UInt8) {addr : UInt64} (hm : Sectors m) (hblock : ¬ m.blockAddr addr < sysSectors m.param) :
    malRead m addr buff = ((dataRead m.param m.pageSize (m.blockAddr addr) buff).1,
      (dataRead m.param m.pageSize (m.blockAddr addr) buff).2.1,
      { m with param := (dataRead m.param m.pageSize (m.blockAddr addr) buff).2.2 }) := by
  rw [malRead, sysRead_clusters hm.boot hm.sector hblock]

theorem malWrite_clusters (hblock : ¬ m.blockAddr addr < sysSectors m.param) :
    malWrite m addr buff = ((dataWrite m.param m.pageSize (m.blockAddr addr) buff).1,
      { m with param := (dataWrite m.param m.pageSize (m.blockAddr addr) buff).2 }) := by
  rw [malWrite]
  rw [if_neg hblock]

theorem Param.setTree_self (p : Param) : p.setTree p.tree = p := rfl

theorem dataRead_param (hno : ∀ o, m.ownerAt addr = some o → ¬ o.Entries) :
    (dataRead m.param m.pageSize (m.blockAddr addr) buff).2.2 = m.param := by
  unfold dataRead readOwner
  cases ho : m.ownerAt addr with
  | none =>
    rw [Mal.ownerAt, Mal.clusterAt] at ho
    rw [ho]
    rfl
  | some o =>
    have hentries := hno o ho
    rw [Mal.ownerAt, Mal.clusterAt] at ho
    rw [ho, filter_some]
    split_ifs
    · dsimp only
      cases hd : if o.file.isDir then none else o.file.buff with
      | some d => rfl
      | none =>
        match hcb : o.file.cb with
        | .dir => exact absurd ⟨hd, hcb⟩ hentries
        | .user (some _) _ => rfl
        | .user none _ => rfl
    · rfl

theorem harmless_file (hm : Sectors m) (hbuff : buff.length = m.pageSize.toNat)
    (hblock : ¬ m.blockAddr addr < sysSectors m.param) (hno : ∀ o, m.ownerAt addr = some o → ¬ o.Entries) :
    Harmless (backRead m addr buff) (backWrite m addr buff) := by
  have hread := malRead_clusters buff hm hblock
  rw [dataRead_param hno] at hread
  have hback : backRead m addr buff = m := congrArg (fun r => r.2.2) hread
  rw [backWrite, hback, malWrite_clusters hblock]
  generalize hbytes : (malRead m addr buff).2.1 = bytes
  have hkeep : Harmless m { m with param := m.param } := Harmless.refl m
  unfold dataWrite
  cases ho : m.ownerAt addr with
  | none =>
    rw [Mal.ownerAt, Mal.clusterAt] at ho
    rw [ho]
    exact hkeep
  | some o =>
    have hentries := hno o ho
    rw [Mal.ownerAt, Mal.clusterAt] at ho
    rw [ho, filter_some]
    split_ifs
    · dsimp only
      cases hd : if o.file.isDir then none else o.file.buff with
      | none =>
        match hcb : o.file.cb with
        | .dir => exact absurd ⟨hd, hcb⟩ hentries
        | .user _ (some _) => exact hkeep
        | .user _ none => exact hkeep
      | some d =>
        have hd' : o.file.buff = some d := by
          split_ifs at hd
          exact hd
        dsimp only
        by_cases hwo : o.file.attr &&& attrWriteonly = 0
        · -- the bytes are those of the memory
          have hmem : bytes = memfsRead o.file d (addrOffset m.param o.file (m.blockAddr addr)).toUInt64 m.pageSize buff := by
            rw [← hbytes, hread]
            unfold dataRead readOwner
            rw [ho, filter_some, if_pos (by simpa using hwo)]
            dsimp only
            rw [hd]
          have hfile : { o.file with buff := some d } = o.file := by
            rw [← hd']
          rw [hmem, memfsWrite_read _ _ _ hbuff, hfile, setByCluster_same _ _ ho, Param.setTree_self]
          exact hkeep
        · have hhide : ∀ b : UInt8 → Bool, b o.file.attr = true → (setByCluster m.param (clusterIndex m.param (m.blockAddr addr))
              { o.file with buff := some (memfsWrite o.file d (addrOffset m.param o.file (m.blockAddr addr)).toUInt64 m.pageSize bytes) }
              o.child m.param.tree).hide b = m.param.tree.hide b := by
            intro b hb
            have hfile : ∀ d', ({ o.file with buff := d' } : Node).hide b = o.file.hide b := by
              intro d'
              simp [Node.hide, hb]
            rw [← setByCluster_hide, hfile, setByCluster_hide, setByCluster_same _ _ ho]
          have hroot := setByCluster_root m.param (clusterIndex m.param (m.blockAddr addr))
            { o.file with buff := some (memfsWrite o.file d (addrOffset m.param o.file (m.blockAddr addr)).toUInt64 m.pageSize bytes) }
            o.child
          refine Alike.harmless (alike_tree hm.boot hroot (hhide unread ?_)) hm rfl ?_
          · simpa [unread] using hwo
          · dsimp only
            rw [hroot, hhide _ rfl]
    · exact hkeep

end FakeFat
end Vsf
