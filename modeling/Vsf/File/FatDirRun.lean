/-
# A directory is searched as it is on the disk

`DirOn` says what the sectors of a directory hold. `vsffat_getchild` finds the file if the sectors
up to it are read, hold short entries with names that can be parsed in place, and are left for the
right ones (`Fat.Path`). Then every search ends right (`Fat.getchild_right`).
-/
import Mathlib
import Vsf.File.DentryInPlace
import Vsf.File.FatDir

namespace Vsf
namespace Fat

open ByteMem Bpb File List Option

/-! ### A volume -/

/-- What is not 0 of a FAT32 volume with 2 sectors in a cluster: the boot sector, the entries of clusters 3
and 4, and two files `A`. -/
def listBytes : List (ℕ × UInt8) :=
  [(0, 0xEB), (12, 2), (13, 2), (14, 32), (16, 1), (34, 3), (37, 4), (44, 2), (48, 1), (510, 0x55), (511, 0xAA)] ++
    ([16396, 16400].flatMap fun a => [(a, 0xFF), (a + 1, 0xFF), (a + 2, 0xFF), (a + 3, 0x0F)]) ++
    [542208, 542720].flatMap fun a => (a, 65) :: (a + 11, 0x20) :: (List.range 10).map fun k => (a + 1 + k, space)

/-- In the first sector of cluster 3 every entry is erased. -/
def listVolume : Device where
  disk a := if 541696 ≤ a ∧ a < 542208 then (if a % 32 = 0 then 0xE5 else 0) else (listBytes.lookup a).getD 0
  blockSize := 512
  blockNum := 196608

def listFat : Fat where
  type := .fat32
  sectorsizeBits := 9
  clustersizeBits := 1
  fatnum := 1
  reservedSize := 32
  rootentry := 0
  fsinfo := 1
  fatsize := 1024
  rootCluster := 2
  clusternum := 98290
  fatbase := 32
  database := 1056
  rootbase := 1056
  rootsize := 0

theorem listVolume_valid : Valid listVolume.disk where
  sec_size := by decide +kernel
  clus_size := ⟨1, by decide, by decide +kernel⟩
  reserved := by decide +kernel
  tables := by decide +kernel
  sectors := by decide +kernel
  room := by decide +kernel
  count := by decide +kernel
  root := by decide +kernel
  fat32 _ := by decide +kernel
  magic := by decide +kernel
  jmp := by decide +kernel

theorem listVolume_mounted : bytsPerSec listVolume.disk = 512 ∧ parseDbr listVolume.disk 512 0 = some listFat := by
  decide +kernel

/-! ### What a directory is -/

/-- `n` sectors of a cluster, each with the cluster. -/
def spotsFrom (cluster : ℕ) : ℕ → ℕ → List (ℕ × ℕ)
  | _, 0 => []
  | sector, n + 1 => (cluster, sector) :: spotsFrom cluster (sector + 1) n

/-- The sectors of the root directory of FAT12 and FAT16, which has no cluster. -/
def rootSpots (m : Mem) : List (ℕ × ℕ) := spotsFrom 0 (firstRootSector m) (rootDirSectors m)

/-- The sectors of some clusters. -/
def chainSpots (m : Mem) (cs : List ℕ) : List (ℕ × ℕ) := cs.flatMap fun c => spotsFrom c (sectorOf m c) (secPerClus m)

/-- The bytes of the sectors, one behind the other. -/
def dirMem (m : Mem) (spots : List (ℕ × ℕ)) : Mem := fun i =>
  m ((spots.getD (i / bytsPerSec m) (0, 0)).2 * bytsPerSec m + i % bytsPerSec m)

/-- The entries of a sector. -/
def slots (m : Mem) : ℕ := bytsPerSec m / 32

/-- The sectors hold the items, and then an entry with a 0, if one is left. -/
structure Lays (m : Mem) (spots : List (ℕ × ℕ)) (its : List Item) : Prop where
  valid : ∀ it ∈ its, it.Valid
  holds : Holds (dirMem m spots) 0 (its.flatMap Item.bytes)
  fits : entryCount its ≤ spots.length * slots m
  ends : entryCount its < spots.length * slots m → dirMem m spots (32 * entryCount its) = 0

/-- A mounted volume, and a directory on it. -/
structure DirOn (c : ChildCall) (spots : List (ℕ × ℕ)) (its : List Item) : Prop where
  valid : Valid c.dev.disk
  mounted : ∃ fsinfo, parseDbr c.dev.disk c.dev.blockSize fsinfo = some c.fat
  place : (c.firstCluster = 0 ∧ fatType c.dev.disk ≠ .fat32 ∧ spots = rootSpots c.dev.disk) ∨
    ∃ cs, Chain c.dev.disk (some c.firstCluster) cs ∧ spots = chainSpots c.dev.disk cs
  lays : Lays c.dev.disk spots its

/-- What the caller gets of a search. -/
def childResult : Option FatFile → ChildResult
  | some f => (.none, some f)
  | none => (.notAvailable, none)

/-- **The file looked for, or that there is none**; or a failed read, or no memory. -/
def ChildRight (as : ℕ → Answer) (file : Option FatFile) (r : ChildResult) : Prop :=
  r = childResult file ∨ (r = (.fail, none) ∧ ∃ n, (as n).junk ≠ none) ∨
    r = (.notEnoughResources, none) ∧ ∃ n, (as n).fileRoom = false ∨ (as n).nameRoom = false

/-! ### Two directories -/

/-- The search for the first file of the directory in a cluster. -/
def listCall (cluster : ℕ) : ChildCall where
  dev := listVolume
  fat := listFat
  firstCluster := cluster
  query := .index 0

/-- The entry of `A`. -/
def listEntry : List UInt8 := 65 :: List.replicate 10 space ++ 0x20 :: List.replicate 20 0

/-- An erased entry. -/
def erasedEntry : List UInt8 := 0xE5 :: List.replicate 31 0

theorem listEntry_ok : ShortOk listEntry := ⟨by decide, by decide, by decide, by decide, by decide, by decide⟩

theorem erasedEntry_ok : SkipOk erasedEntry := ⟨by decide, by decide, by decide⟩

theorem holds_of_range {m : Mem} {a : ℕ} {bs : List UInt8} (h : (List.range bs.length).map (fun i => m (a + i)) = bs) :
    Holds m a bs := by
  intro i hi
  have hi' : i < ((List.range bs.length).map fun i => m (a + i)).length := by simpa using hi
  rw [← getElem_of_eq h hi', getElem_map, getElem_range]

theorem listCall_dir {cluster sector : ℕ} {its : List Item} (hnext : next listVolume.disk cluster = none)
    (hrange : 2 ≤ cluster ∧ cluster < countOfClusters listVolume.disk + 2)
    (hspots : chainSpots listVolume.disk [cluster] = [(cluster, sector), (cluster, sector + 1)]) (hvalid : ∀ it ∈ its, it.Valid)
    (hroom : entryCount its < 32) (hholds : Holds listVolume.disk (512 * sector) (its.flatMap Item.bytes))
    (hend : listVolume.disk (512 * sector + 32 * entryCount its) = 0) :
    DirOn (listCall cluster) [(cluster, sector), (cluster, sector + 1)] its := by
  obtain ⟨hbytes, hmount⟩ := listVolume_mounted
  have hmem : ∀ i < 1024, dirMem listVolume.disk [(cluster, sector), (cluster, sector + 1)] i = listVolume.disk (512 * sector + i) := by
    intro i hi
    rw [dirMem, hbytes]
    by_cases hlt : i < 512
    · rw [Nat.div_eq_of_lt hlt, Nat.mod_eq_of_lt hlt, mul_comm]
      rfl
    · rw [show i / 512 = 1 by omega]
      show listVolume.disk ((sector + 1) * 512 + i % 512) = listVolume.disk (512 * sector + i)
      congr 1
      omega
  have hlen := flatMap_bytes_length fun it hit => (hvalid it hit).bytes_length
  have hslots : slots listVolume.disk = 16 := by rw [slots, hbytes]
  exact {
    valid := listVolume_valid
    mounted := ⟨0, hmount⟩
    place := .inr ⟨[cluster], ⟨⟨rfl, hnext⟩, fun c hc => mem_singleton.mp hc ▸ hrange⟩, hspots.symm⟩
    lays := {
      valid := hvalid
      holds := fun i hi => by rw [zero_add, ← hholds i hi]; exact hmem i (by omega)
      fits := show entryCount its ≤ 2 * slots listVolume.disk by omega
      ends := fun _ => (hmem _ (by omega)).trans hend } }

theorem listCall_first : DirOn (listCall 4) [(4, 1060), (4, 1061)] [.short listEntry] := by
  refine listCall_dir (by decide +kernel) (by decide +kernel) (by decide +kernel) ?_ (by decide) ?_ (by decide +kernel)
  · intro it hit
    obtain rfl := mem_singleton.mp hit
    exact listEntry_ok
  · exact holds_of_range (by decide +kernel)

theorem listCall_erased : DirOn (listCall 3) [(3, 1058), (3, 1059)] (List.replicate 16 (.skip erasedEntry) ++ [.short listEntry]) := by
  refine listCall_dir (by decide +kernel) (by decide +kernel) (by decide +kernel) ?_ (by decide) ?_ (by decide +kernel)
  · intro it hit
    rcases mem_append.mp hit with hit | hit
    · obtain rfl := eq_of_mem_replicate hit
      exact erasedEntry_ok
    · obtain rfl := mem_singleton.mp hit
      exact listEntry_ok
  · exact holds_of_range (by decide +kernel)

/-! ### Where it is right -/

/-- A sector, in memory. -/
def sectorMem (m : Mem) (sector : ℕ) : Mem := fun i => m (sector * bytsPerSec m + i)

/-- A sector that is read as it is. -/
structure Readable (c : ChildCall) (sector : ℕ) : Prop where
  accepted : c.dev.accepts sector 1
  low : (sector + 1) * bytsPerSec c.dev.disk ≤ 2 ^ 32

/-- The last sector of a cluster is known, and the next cluster is found. -/
structure Hop (c : ChildCall) (p : ℕ × ℕ) : Prop where
  leaves : stays c.fat p.1 p.2 = false
  agrees : Agrees c.dev c.fat
  small : p.1 * c.fat.fatbit < 2 ^ 32
  low : (c.fat.lastSec p.1 + 1) * bytsPerSec c.dev.disk ≤ 2 ^ 32
  first : c.dev.accepts (c.fat.firstSec p.1) 1
  last : c.dev.accepts (c.fat.lastSec p.1) 1

/-- The items start a sector. They are short entries, and no name goes over an entry still to be parsed. -/
structure Parsed (c : ChildCall) (sector : ℕ) (its : List Item) : Prop where
  read : Readable c sector
  fits : entryCount its ≤ slots c.dev.disk
  safe : ItemsSafe (sectorMem c.dev.disk sector) 0 (bytsPerSec c.dev.disk) 0 its

/-- A sector is left for the next: full, or ended in its last slot. -/
def Left (c : ChildCall) (here : List Item) (ends : Prop) : Prop :=
  entryCount here = slots c.dev.disk ∨ entryCount here + 1 = slots c.dev.disk ∧ ends

/-- **The way to the answer**: the file is in this sector; or the directory ends in it, in front of its last
slot or passed over there; or it is left, none of its files is the one, and the next sector is right, and
says so as well if the directory has ended. -/
inductive Path (c : ChildCall) : List (ℕ × ℕ) → Query → List Item → Prop
  | hit {p : ℕ × ℕ} {ps : List (ℕ × ℕ)} {q : Query} {pre : List Item} {b : List UInt8} {post : List Item}
      (parsed : Parsed c p.2 (pre ++ [.short b])) (miss : q.answer (liveFiles pre) = none)
      (found : q.answer (liveFiles (pre ++ [.short b])) ≠ none) : Path c (p :: ps) q (pre ++ .short b :: post)
  | ended {p : ℕ × ℕ} {ps : List (ℕ × ℕ)} {q : Query} {its : List Item} (parsed : Parsed c p.2 its)
      (room : entryCount its + 1 < slots c.dev.disk) (miss : q.answer (liveFiles its) = none) : Path c (p :: ps) q its
  | cut {p : ℕ × ℕ} {ps : List (ℕ × ℕ)} {q : Query} {pre : List Item} {b : List UInt8} {post : List Item} (parsed : Parsed c p.2 pre)
      (slot : entryCount pre + 1 = slots c.dev.disk) (miss : q.answer (liveFiles (pre ++ .skip b :: post)) = none) :
      Path c (p :: ps) q (pre ++ .skip b :: post)
  | onward {p p' : ℕ × ℕ} {ps : List (ℕ × ℕ)} {q : Query} {here more : List Item} (parsed : Parsed c p.2 here)
      (left : Left c here (more = [] ∧ sectorMem c.dev.disk p'.2 0 = 0)) (miss : q.answer (liveFiles here) = none)
      (on : if p'.1 = p.1 then stays c.fat p.1 p.2 = true else Hop c p)
      (rest : Path c (p' :: ps) (q.after (liveFiles here).length) more) : Path c (p :: p' :: ps) q (here ++ more)
  | last {p : ℕ × ℕ} {q : Query} {its : List Item} (parsed : Parsed c p.2 its) (left : Left c its True)
      (miss : q.answer (liveFiles its) = none) (chain : p.1 ≠ 0) (hop : Hop c p) : Path c [p] q its

/-- The condition on a search: it begins in the right sector, and goes the way. -/
def ChildMeets (c : ChildCall) (spots : List (ℕ × ℕ)) (its : List Item) : Prop :=
  (c.firstCluster ≠ 0 → c.fat.clus2sec c.firstCluster = sectorOf c.dev.disk c.firstCluster) ∧ Path c spots c.query its

/-! ### What the mount says -/

/-- What the search needs of it. -/
structure Mounted (d : Device) (fat : Fat) : Prop where
  sec_size : bytsPerSec d.disk ∈ [512, 1024, 2048, 4096]
  sectorsize : fat.sectorsize = bytsPerSec d.disk
  block : d.blockSize = bytsPerSec d.disk
  fatbase : fat.fatbase ≠ 0
  type : fat.type ≠ .exfat
  rootbase : fat.rootbase = firstRootSector d.disk % 2 ^ 32
  root : rootEntCnt d.disk ≠ 0 → fat.type = .fat12 ∨ fat.type = .fat16

variable {d : Device} {fat : Fat}

theorem mounted_of_parse {fsinfo : ℕ} (hv : Valid d.disk) (h : parseDbr d.disk d.blockSize fsinfo = some fat) : Mounted d fat := by
  have hfat : parseDbrFat d.disk d.blockSize fsinfo = some fat := by
    rw [parseDbr, if_neg (by simp [hv.magic]), if_pos (List.any_eq_true.mpr ⟨0, by simp, by simpa using hv.jmp⟩)] at h
    exact h
  obtain ⟨hblock, hsec, -, hbase⟩ := parseDbrFat_fields hfat
  have hsize : fat.sectorsize = bytsPerSec d.disk := by
    have hcases := hv.sec_size
    simp only [mem_cons, not_mem_nil, or_false] at hcases
    rw [Fat.sectorsize, hsec]
    rcases hcases with h | h | h | h
    all_goals
      rw [h]
      decide
  have hrest : fat.type ≠ .exfat ∧ fat.rootbase = firstRootSector d.disk % 2 ^ 32 ∧
      (rootEntCnt d.disk ≠ 0 → fat.type = .fat12 ∨ fat.type = .fat16) := by
    unfold parseDbrFat at hfat
    dsimp only at hfat
    by_cases h0 : rootEntCnt d.disk = 0
    · rw [if_pos h0] at hfat
      split_ifs at hfat
      all_goals
        obtain rfl := some.inj hfat
        exact ⟨by simp, rfl, fun hne => absurd h0 hne⟩
    · rw [if_neg h0] at hfat
      split_ifs at hfat
      all_goals
        obtain rfl := some.inj hfat
        exact ⟨by simp, rfl, fun _ => by simp⟩
  exact ⟨hv.sec_size, hsize, hblock.symm, hbase ▸ hv.reserved, hrest.1, hrest.2.1, hrest.2.2⟩

namespace Mounted

variable (h : Mounted d fat)

include h

theorem size_le : 512 ≤ bytsPerSec d.disk ∧ bytsPerSec d.disk ≤ 4096 ∧ 32 * slots d.disk = bytsPerSec d.disk := by
  have := h.sec_size
  simp only [mem_cons, not_mem_nil, or_false] at this
  unfold slots
  omega

theorem entries : 2 ^ (fat.sectorsizeBits - 5) = slots d.disk := by
  obtain ⟨hlo, -, -⟩ := h.size_le
  have hsec := h.sectorsize
  rw [Fat.sectorsize] at hsec
  have hle : 5 ≤ fat.sectorsizeBits := by
    by_contra hlt
    have := Nat.pow_le_pow_right (n := 2) (by decide) (le_of_lt (not_le.mp hlt))
    omega
  rw [slots, ← hsec, ← Nat.pow_div hle (by decide)]

theorem filled {sector : ℕ} (m : Mem) : ∀ i < d.blockSize, d.deliver sector 1 0 m i = d.byte sector i := by
  intro i hi
  obtain ⟨-, hle, -⟩ := h.size_le
  rw [h.block] at hi
  have hmod : 1 * (d.blockSize % 2 ^ 32) % 2 ^ 32 = bytsPerSec d.disk := by
    rw [h.block]
    omega
  rw [Device.deliver, if_pos ⟨Nat.zero_le i, by omega⟩, Nat.sub_zero]

theorem sector {sector : ℕ} (hlow : (sector + 1) * bytsPerSec d.disk ≤ 2 ^ 32) (m : Mem) :
    Agree (d.deliver sector 1 0 m) (sectorMem d.disk sector) 0 (bytsPerSec d.disk) := by
  intro i _ hi
  obtain ⟨hlo, hle, -⟩ := h.size_le
  have hmod : d.blockSize % 2 ^ 32 = bytsPerSec d.disk := by
    rw [h.block]
    omega
  rw [add_mul, one_mul] at hlow
  rw [h.filled m i (by rw [h.block]; exact hi), Device.byte, hmod, sectorMem, Nat.mod_eq_of_lt (by omega)]

end Mounted

/-! ### The next cluster -/

variable {c : ChildCall} {as : ℕ → Answer} {file : Option FatFile} {s : Child} {n cl : ℕ}

/-- The search ends, and as it should. -/
def Finds (c : ChildCall) (as : ℕ → Answer) (file : Option FatFile) (x : ChildResult ⊕ (ℕ × Child)) : Prop :=
  ∃ r, Loop.Goes (Child.next c as) x r ∧ ChildRight as file r

theorem Finds.turn (h : Finds c as file (Child.next c as (n, s))) : Finds c as file (.inr (n, s)) := by
  obtain ⟨r, hgoes, hright⟩ := h
  exact ⟨r, Loop.ends_iff.mpr hgoes, hright⟩

theorem Finds.over {r : ChildResult} (h : ChildRight as file r) : Finds c as file (.inl r) := ⟨r, rfl, h⟩

theorem Finds.failed {junk : Mem} (h : (as n).junk = some junk) : Finds c as file (.inl (.fail, none)) :=
  .over (.inr (.inl ⟨rfl, n, by simp [h]⟩))

/-- Only the first sector of an entry is followed by another one. -/
theorem first_wait {l : Lookup} {startbit startbitSec sector : ℕ} (hlt : startbitSec < 8 * fat.sectorsize) (hbit : fat.fatbit ≠ 0)
    (h : (l.first fat startbit startbitSec).2 = .wait sector) : (l.first fat startbit startbitSec).1.readbit ≠ 0 := by
  unfold Lookup.first at h ⊢
  dsimp only at h ⊢
  rw [Placed.sectorbit] at h ⊢
  have hmin : min fat.fatbit (8 * fat.sectorsize - startbitSec) ≠ 0 := by omega
  split_ifs at h ⊢
  unfold Lookup.again at h ⊢
  dsimp only at h ⊢
  split_ifs
  · exact hmin
  · exact hmin

theorem resume_waits (hp : Placed d fat) {l : Lookup} {sector : ℕ} (h : (fat.lookupResume l true).2 = .wait sector) :
    ¬ l.readbit ≠ 0 ∧ (fat.lookupResume l true).1.readbit ≠ 0 := by
  unfold lookupResume at h ⊢
  rw [if_neg (by decide)] at h ⊢
  by_cases hbit : l.readbit ≠ 0
  · rw [if_pos hbit] at h
    cases h
  · rw [if_neg hbit] at h ⊢
    have hfatbit : fat.fatbit ≠ 0 := by
      rw [Fat.fatbit, hp.type]
      rcases fatType_cases d.disk with ht | ht | ht
      all_goals
        rw [ht]
        decide
    refine ⟨hbit, first_wait ?_ hfatbit h⟩
    rw [startbitSec, ← Placed.sectorbit]
    exact Nat.mod_lt _ (Nat.two_pow_pos _)

/-- **A lookup is over**, or waits for another sector. -/
theorem looked_finds {r : Lookup × LookupOut} (hr : Looked c.dev c.fat cl r)
    (hdone : ∀ l, l.entry = rawEntry c.dev.disk cl → Finds c as file ((s.looked c (l, .done)).map id (n, ·)))
    (hwait : ∀ l, r = (l, .wait l.curFatsector) → Waiting c.dev c.fat cl l →
      Finds c as file (.inr (n, { s with look := l, pc := .table l.curFatsector }))) :
    Finds c as file ((s.looked c r).map id (n, ·)) := by
  obtain ⟨l, out⟩ := r
  cases out with
  | wait sector =>
    obtain ⟨hl, rfl⟩ := hr
    exact hwait l rfl hl
  | done => exact hdone l hr.1
  | fail => exact hr.elim

theorem table_turn (hm : Mounted c.dev c.fat) (hp : Placed c.dev c.fat) {cached : ℕ} (hok : LookupOk c.fat cached cl) {l : Lookup}
    (hw : Waiting c.dev c.fat cl l) (hacc : c.dev.accepts l.curFatsector 1)
    (hgo : ∀ l', Looked c.dev c.fat cl (c.fat.lookupResume l' true) → l'.readbit = l.readbit →
      Finds c as file ((Child.looked c { s with look := l', pc := .table l.curFatsector } (c.fat.lookupResume l' true)).map id (n + 1, ·))) :
    Finds c as file (.inr (n, { s with look := l, pc := .table l.curFatsector })) := by
  apply Finds.turn
  simp only [Child.next, Child.request, if_pos hacc, Child.resume, Child.filled]
  cases hjunk : (as n).junk with
  | some junk => exact Finds.failed hjunk
  | none =>
    refine hgo { l with buffer := c.dev.deliver l.curFatsector 1 0 l.buffer } (lookupResume_spec hp hok ?_ (hm.filled _)) rfl
    exact hw

/-- **The entry of a cluster is found**, after one wait or two. -/
theorem table_finds (hm : Mounted c.dev c.fat) (hp : Placed c.dev c.fat) {cached : ℕ} (hok : LookupOk c.fat cached cl) {l : Lookup}
    (hfirst : c.dev.accepts (c.fat.firstSec cl) 1) (hlast : c.dev.accepts (c.fat.lastSec cl) 1) (hw : Waiting c.dev c.fat cl l)
    (hdone : ∀ n l, l.entry = rawEntry c.dev.disk cl → Finds c as file ((s.looked c (l, .done)).map id (n, ·))) :
    Finds c as file (.inr (n, { s with look := l, pc := .table l.curFatsector })) := by
  have hacc : ∀ {l : Lookup}, Waiting c.dev c.fat cl l → c.dev.accepts l.curFatsector 1 := by
    rintro l (⟨-, -, h⟩ | ⟨-, -, -, h⟩)
    · rw [h]
      exact hfirst
    · rw [h]
      exact hlast
  have hsecond : ∀ n l, l.readbit ≠ 0 → Waiting c.dev c.fat cl l →
      Finds c as file (.inr (n, { s with look := l, pc := .table l.curFatsector })) := by
    intro n l hbit hl
    refine table_turn hm hp hok hl (hacc hl) fun l' hlook hread => ?_
    refine looked_finds hlook (fun l'' hentry => hdone _ l'' hentry) fun l'' heq _ => ?_
    exact absurd (hread ▸ hbit) (resume_waits hp (congrArg Prod.snd heq)).1
  refine table_turn hm hp hok hw (hacc hw) fun l' hlook hread => ?_
  refine looked_finds hlook (fun l'' hentry => hdone _ l'' hentry) fun l'' heq hl'' => ?_
  have hwaits := (resume_waits hp (congrArg Prod.snd heq)).2
  rw [heq] at hwaits
  exact hsecond _ l'' hwaits hl''

theorem fatEntry_le (d : Device) (cl : ℕ) : fatEntry d.disk cl ≤ maxEntry d.disk := by
  have hlt : rawEntry d.disk cl < 2 ^ (fatType d.disk).bitsize := Nat.mod_lt _ (Nat.two_pow_pos _)
  unfold fatEntry maxEntry
  rcases fatType_cases d.disk with ht | ht | ht
  all_goals rw [ht] at hlt ⊢
  · have h12 : rawEntry d.disk cl < 2 ^ 12 := hlt
    show rawEntry d.disk cl % 2 ^ 28 ≤ (2 ^ 12 - 1) % 2 ^ 28
    omega
  · have h16 : rawEntry d.disk cl < 2 ^ 16 := hlt
    show rawEntry d.disk cl % 2 ^ 28 ≤ (2 ^ 16 - 1) % 2 ^ 28
    omega
  · show rawEntry d.disk cl % 2 ^ 28 ≤ (2 ^ 32 - 1) % 2 ^ 28
    omega

theorem looked_last (hp : Placed c.dev c.fat) {l : Lookup} (hentry : l.entry = rawEntry c.dev.disk cl)
    (hnext : next c.dev.disk cl = none) : s.looked c (l, .done) = .inl (.notAvailable, none) := by
  have hle := fatEntry_le c.dev cl
  unfold Bpb.next at hnext
  split_ifs at hnext with hlt
  have heof : c.fat.entryEOF l.entry = true := by
    simp only [entryEOF, hentry, hp.masked_rawEntry, hp.mask_eq, Bool.and_eq_true, decide_eq_true_eq]
    omega
  unfold Child.looked
  rw [if_pos (.inr heof)]

theorem looked_next (hv : Valid c.dev.disk) (hp : Placed c.dev c.fat) {l : Lookup} {cl' : ℕ}
    (hentry : l.entry = rawEntry c.dev.disk cl) (hnext : next c.dev.disk cl = some cl') (h2 : 2 ≤ cl')
    (hlt : cl' < countOfClusters c.dev.disk + 2) : s.looked c (l, .done) =
      .inr { s with look := { l with entry := cl' }, curSector := c.fat.clus2sec cl', pc := .sector } := by
  obtain ⟨hvalid, hmod⟩ := hp.entry_next hnext h2
  have hcount := hv.count
  have hmasked : c.fat.masked (rawEntry c.dev.disk cl) = cl' := by
    unfold Bpb.next at hnext
    split_ifs at hnext
    rw [hp.masked_rawEntry]
    exact some.inj hnext
  have heof : c.fat.entryEOF l.entry ≠ true := by
    simp only [entryEOF, hentry, hmasked, hp.mask_eq, ne_eq, Bool.and_eq_true, decide_eq_true_eq]
    omega
  unfold Child.looked
  rw [if_neg (by simp [hentry ▸ hvalid, heof]), hentry, hmod]

/-- **The way to the next cluster.** -/
theorem hop_finds (hm : Mounted c.dev c.fat) (hp : Placed c.dev c.fat) {p : ℕ × ℕ} (hhop : Hop c p) (h2 : 2 ≤ p.1)
    (hentry : s.look.entry = p.1) (hsector : s.curSector = p.2) (hzero : s.look.curFatsector = 0)
    (hdone : ∀ n l, l.entry = rawEntry c.dev.disk p.1 → Finds c as file ((s.looked c (l, .done)).map id (n, ·))) :
    Finds c as file ((s.advance c).map id (n, ·)) := by
  have hne : 0 ≠ c.fat.firstSec p.1 := (Nat.add_pos_left (pos_of_ne_zero hm.fatbase) _).ne
  have hok : LookupOk c.fat s.look.curFatsector p.1 := by
    rw [hzero]
    exact ⟨hhop.small, by rw [hm.sectorsize]; exact hhop.low, fun h => absurd h hne, fun h => absurd h hne⟩
  have hlook := lookupStart_spec hp hok hentry h2 (fun h => absurd hzero h) hm.fatbase
  unfold Child.advance
  rw [hentry, hsector, hhop.leaves, if_neg Bool.false_ne_true]
  exact looked_finds hlook (fun l h => hdone n l h) fun l _ hw => table_finds hm hp hok hhop.first hhop.last hw hdone

/-! ### The sectors of a directory -/

/-- The sector behind one, in its cluster or the next one. -/
def Comes (m : Mem) (p p' : ℕ × ℕ) : Prop :=
  p'.1 = p.1 ∧ p'.2 = p.2 + 1 ∨
    p'.1 ≠ p.1 ∧ 2 ≤ p.1 ∧ next m p.1 = some p'.1 ∧ (2 ≤ p'.1 ∧ p'.1 < countOfClusters m + 2) ∧ p'.2 = sectorOf m p'.1

/-- The sectors come one behind the other, up to the end. -/
structure Strung (m : Mem) (spots : List (ℕ × ℕ)) : Prop where
  chain : spots.IsChain (Comes m)
  last : ∀ p ∈ spots.getLast?, p.1 = 0 ∨ 2 ≤ p.1 ∧ next m p.1 = none

theorem Strung.tail {m : Mem} {p p' : ℕ × ℕ} {ps : List (ℕ × ℕ)} (h : Strung m (p :: p' :: ps)) : Comes m p p' ∧ Strung m (p' :: ps) := by
  obtain ⟨hcomes, hchain⟩ := isChain_cons_cons.mp h.chain
  exact ⟨hcomes, hchain, fun x hx => h.last x (by rwa [getLast?_cons_cons])⟩

section Lays

variable {m : Mem} {p : ℕ × ℕ} {ps : List (ℕ × ℕ)} {its here more : List Item}

theorem dirMem_head {i : ℕ} (hi : i < bytsPerSec m) : dirMem m (p :: ps) i = sectorMem m p.2 i := by
  rw [dirMem, Nat.div_eq_of_lt hi, Nat.mod_eq_of_lt hi]
  rfl

theorem dirMem_tail (hpos : 0 < bytsPerSec m) (i : ℕ) : dirMem m (p :: ps) (bytsPerSec m + i) = dirMem m ps i := by
  rw [dirMem, Nat.add_div_left i hpos, Nat.add_mod_left]
  rfl

theorem Lays.head (h : Lays m (p :: ps) (here ++ more)) (hfits : 32 * entryCount here ≤ bytsPerSec m) :
    (∀ it ∈ here, it.Valid) ∧ Holds (sectorMem m p.2) 0 (here.flatMap Item.bytes) := by
  have hvalid : ∀ it ∈ here, it.Valid := fun it hit => h.valid it (mem_append_left _ hit)
  have hholds := h.holds
  rw [flatMap_append, holds_append] at hholds
  refine ⟨hvalid, fun i hi => ?_⟩
  rw [← hholds.1 i hi, zero_add]
  have hlen := flatMap_bytes_length fun it hit => (hvalid it hit).bytes_length
  exact (dirMem_head (by omega)).symm

theorem Lays.tail (h : Lays m (p :: ps) (here ++ more)) (hsize : 32 * slots m = bytsPerSec m) (hpos : 0 < bytsPerSec m)
    (hfull : entryCount here = slots m) : Lays m ps more := by
  have hvalid : ∀ it ∈ here, it.Valid := fun it hit => h.valid it (mem_append_left _ hit)
  have hholds := h.holds
  have hfits := h.fits
  have hends := h.ends
  rw [flatMap_append, holds_append, flatMap_bytes_length (fun it hit => (hvalid it hit).bytes_length), hfull, hsize] at hholds
  rw [entryCount_append, hfull, length_cons, add_mul, one_mul] at hfits hends
  refine ⟨fun it hit => h.valid it (mem_append_right _ hit), fun i hi => ?_, by omega, fun hlt => ?_⟩
  · rw [← hholds.2 i hi, zero_add, zero_add, dirMem_tail hpos]
  · rw [← hends (by omega), mul_add, hsize, dirMem_tail hpos]

end Lays

/-! ### The search -/

theorem search_eq (hm : Mounted c.dev c.fat) (a : Answer) : s.search c a =
    s.searched c a (scan c.query (bytsPerSec c.dev.disk) (slots c.dev.disk)
      ⟨s.look.buffer, 0, UInt16.ofNat (slots c.dev.disk), 0, 0⟩ s.curIndex) := by
  have hsize := hm.size_le
  rw [Child.search, hm.entries, hm.sectorsize, toNat_ofNat16 (by omega)]

/-- **A sector of the directory is read.** -/
theorem sector_turn (hm : Mounted c.dev c.fat) (hpc : s.pc = .sector) (hr : Readable c s.curSector)
    (hgo : ∀ m, Agree m (sectorMem c.dev.disk s.curSector) 0 (bytsPerSec c.dev.disk) →
      Finds c as file ((Child.searched c { s with look := { s.look with buffer := m, curFatsector := 0 } } (as n)
        (scan c.query (bytsPerSec c.dev.disk) (slots c.dev.disk) ⟨m, 0, UInt16.ofNat (slots c.dev.disk), 0, 0⟩ s.curIndex)).map
          id (n + 1, ·))) : Finds c as file (.inr (n, s)) := by
  apply Finds.turn
  have hreq : s.request = some s.curSector := by rw [Child.request, hpc]
  simp only [Child.next, hreq, if_pos hr.accepted]
  have hfilled : (s.filled c s.curSector (as n).junk).pc = .sector := hpc
  unfold Child.resume
  rw [hfilled]
  cases hjunk : (as n).junk with
  | some junk => exact Finds.failed hjunk
  | none =>
    rw [if_neg (by simp), if_neg hm.type, search_eq hm]
    exact hgo _ (hm.sector hr.low _)

theorem searched_hit (hm : Mounted c.dev c.fat) {d : Dparser} {f : FatFile} (h : Shows (bytsPerSec c.dev.disk) d f) {m : ℕ} :
    Finds c as (some f) ((s.searched c (as n) (.hit d)).map id (m, ·)) := by
  rw [Child.searched]
  by_cases hroom : (as n).fileRoom = false ∨ (as n).nameRoom = false
  · rw [if_pos hroom]
    exact .over (.inr (.inr ⟨rfl, n, hroom⟩))
  · rw [if_neg hroom, hm.sectorsize, h.name]
    refine .over (.inl ?_)
    rw [h.fields]
    rfl

theorem searched_noMore {m : ℕ} : Finds c as none ((s.searched c (as n) .noMore).map id (m, ·)) := .over (.inl rfl)

section Pass

variable {q : Query} {p : ℕ × ℕ} {ps : List (ℕ × ℕ)} {here more : List Item}

/-- **The parser goes over the items of a sector**, none of which is the one. -/
theorem sector_pass (hm : Mounted c.dev c.fat) (hlays : Lays c.dev.disk (p :: ps) (here ++ more)) (parsed : Parsed c p.2 here)
    {curIndex : UInt32} (miss : (q.since curIndex).answer (liveFiles here) = none) {r : ℕ} (hr : entryCount here + r = slots c.dev.disk)
    {m : Mem} (hag : Agree m (sectorMem c.dev.disk p.2) 0 (bytsPerSec c.dev.disk)) :
    ∃ m' fuel, r ≤ fuel ∧ Agree m' (sectorMem c.dev.disk p.2) (32 * entryCount here) (bytsPerSec c.dev.disk) ∧
      scan q (bytsPerSec c.dev.disk) (slots c.dev.disk) ⟨m, 0, UInt16.ofNat (slots c.dev.disk), 0, 0⟩ curIndex =
        scan q (bytsPerSec c.dev.disk) fuel ⟨m', 32 * entryCount here, UInt16.ofNat r, 0, 0⟩
          (curIndex + UInt32.ofNat (liveFiles here).length) := by
  obtain ⟨hlo, hhi, hsize⟩ := hm.size_le
  obtain ⟨hvalid, hholds⟩ := hlays.head (by omega)
  obtain ⟨m', hag', hrun⟩ := scan_items (show 12 < bytsPerSec c.dev.disk by omega) here 0 m r curIndex hvalid hholds hag (by omega)
    parsed.safe miss (by omega)
  obtain ⟨fuel, hle, heq⟩ := hrun (slots c.dev.disk) hr.le
  rw [zero_add] at hag' heq
  rw [hr] at heq
  exact ⟨m', fuel, hle, hag', heq⟩

theorem Path.readable {q : Query} {its : List Item} (h : Path c (p :: ps) q its) : Readable c p.2 := by
  cases h with
  | hit parsed | ended parsed | cut parsed | onward parsed | last parsed => exact parsed.read

/-- **The next sector of the directory.** -/
theorem onward_finds (hv : Valid c.dev.disk) {fsinfo : ℕ} (hmount : parseDbr c.dev.disk c.dev.blockSize fsinfo = some c.fat)
    {p' : ℕ × ℕ} (hcomes : Comes c.dev.disk p p') (hon : if p'.1 = p.1 then stays c.fat p.1 p.2 = true else Hop c p)
    (hlow : Readable c p.2) (hlow' : Readable c p'.2) (hentry : s.look.entry = p.1) (hsector : s.curSector = p.2)
    (hzero : s.look.curFatsector = 0) (hgo : ∀ n s', s'.pc = .sector → s'.look.entry = p'.1 → s'.curSector = p'.2 →
      s'.curIndex = s.curIndex → Finds c as file (.inr (n, s'))) : Finds c as file ((s.advance c).map id (n, ·)) := by
  have hm := mounted_of_parse hv hmount
  obtain ⟨hlo, -, -⟩ := hm.size_le
  have hlt : ∀ {x : ℕ}, Readable c x → x + 1 < 2 ^ 32 := by
    intro x hx
    have := (Nat.mul_le_mul_left (x + 1) hlo).trans hx.low
    omega
  rcases hcomes with ⟨hsame, hnext⟩ | ⟨hne, h2, hnext, hrange, hsec⟩
  · rw [if_pos hsame] at hon
    unfold Child.advance
    rw [hentry, hsector, hon, if_pos rfl]
    refine hgo n _ rfl (hentry.trans hsame.symm) ?_ rfl
    exact (Nat.mod_eq_of_lt (hlt hlow)).trans hnext.symm
  · rw [if_neg hne] at hon
    have hp := placed_of_mount hv hmount hon.agrees
    refine hop_finds hm hp hon h2 hentry hsector hzero fun n l hl => ?_
    rw [looked_next hv hp hl hnext hrange.1 hrange.2]
    refine hgo n _ rfl rfl ?_ rfl
    have hlow'' := hlt hlow'
    rw [hsec] at hlow'' ⊢
    exact hp.clus2sec_eq hrange.1 (by omega)

theorem hit_finds (hm : Mounted c.dev c.fat) {pre post : List Item} {b : List UInt8}
    (hlays : Lays c.dev.disk (p :: ps) (pre ++ .short b :: post)) (parsed : Parsed c p.2 (pre ++ [.short b])) (hpc : s.pc = .sector)
    (hsec : s.curSector = p.2) (miss : (c.query.since s.curIndex).answer (liveFiles pre) = none) {f : FatFile}
    (found : (c.query.since s.curIndex).answer (liveFiles (pre ++ [.short b])) = some f) : Finds c as (some f) (.inr (n, s)) := by
  obtain ⟨hlo, hhi, hsize⟩ := hm.size_le
  have hfits := parsed.fits
  have hlays' : Lays c.dev.disk (p :: ps) (pre ++ [.short b] ++ post) := by simpa using hlays
  obtain ⟨hvalid, hholds⟩ := hlays'.head (by omega)
  refine sector_turn hm hpc (hsec ▸ parsed.read) fun m hag => ?_
  rw [hsec] at hag
  obtain ⟨d, hshows, hscan⟩ := scan_hit (show 12 < bytsPerSec c.dev.disk by omega) hvalid hholds hag (by omega) parsed.safe miss found
    hfits (by omega)
  rw [hscan]
  exact searched_hit hm hshows

/-- The directory ends in this sector, in front of its last slot. -/
theorem ended_finds (hm : Mounted c.dev c.fat) (hlays : Lays c.dev.disk (p :: ps) here) (parsed : Parsed c p.2 here)
    (hpc : s.pc = .sector) (hsec : s.curSector = p.2) (room : entryCount here + 1 < slots c.dev.disk)
    (miss : (c.query.since s.curIndex).answer (liveFiles here) = none) : Finds c as none (.inr (n, s)) := by
  obtain ⟨hlo, hhi, hsize⟩ := hm.size_le
  obtain ⟨k, hk⟩ := Nat.exists_eq_add_of_lt room
  have hend := hlays.ends (by rw [length_cons, add_mul]; omega)
  rw [dirMem_head (by omega)] at hend
  refine sector_turn hm hpc (hsec ▸ parsed.read) fun m hag => ?_
  rw [hsec] at hag
  have hlays' : Lays c.dev.disk (p :: ps) (here ++ []) := by rwa [append_nil]
  obtain ⟨m', fuel, hfuel, hag', hscan⟩ := sector_pass (r := k + 2) hm hlays' parsed miss (by omega) hag
  obtain ⟨fuel, rfl⟩ := Nat.exists_eq_succ_of_ne_zero (show fuel ≠ 0 by omega)
  rw [hscan, scan_end ((hag' _ (le_refl _) (by omega)).trans hend) (by omega)]
  exact searched_noMore

/-- **The last slot of this sector is passed over**: there the search ends. -/
theorem cut_finds (hm : Mounted c.dev c.fat) {b : List UInt8} (hlays : Lays c.dev.disk (p :: ps) (here ++ .skip b :: more))
    (parsed : Parsed c p.2 here) (hpc : s.pc = .sector) (hsec : s.curSector = p.2) (slot : entryCount here + 1 = slots c.dev.disk)
    (miss : (c.query.since s.curIndex).answer (liveFiles here) = none) : Finds c as none (.inr (n, s)) := by
  obtain ⟨hlo, hhi, hsize⟩ := hm.size_le
  have hone : entryCount [Item.skip b] = 1 := rfl
  have hlays' : Lays c.dev.disk (p :: ps) (here ++ [.skip b] ++ more) := by simpa using hlays
  obtain ⟨hvalid, hholds⟩ := hlays'.head (by rw [entryCount_append, hone]; omega)
  have hb : SkipOk b := hvalid (.skip b) (by simp)
  rw [flatMap_append, flatMap_singleton, holds_append, zero_add,
    flatMap_bytes_length fun it hit => (hvalid it (mem_append_left _ hit)).bytes_length] at hholds
  refine sector_turn hm hpc (hsec ▸ parsed.read) fun m hag => ?_
  rw [hsec] at hag
  obtain ⟨m', fuel, hfuel, hag', hscan⟩ := sector_pass (r := 1) hm hlays parsed miss slot hag
  obtain ⟨fuel, rfl⟩ := Nat.exists_eq_succ_of_ne_zero (show fuel ≠ 0 by omega)
  have hm' : Holds m' (32 * entryCount here) b := by
    refine (hag'.holds ?_).mpr hholds.2
    rw [hb.length]
    omega
  rw [hscan, show UInt16.ofNat 1 = 1 from rfl, scan_cut hb hm']
  exact searched_noMore

/-- **A sector that is left** for the next one. -/
theorem left_finds (hm : Mounted c.dev c.fat) (hlays : Lays c.dev.disk (p :: ps) (here ++ more)) (parsed : Parsed c p.2 here)
    (hpc : s.pc = .sector) (hsec : s.curSector = p.2) (left : Left c here (more = []))
    (miss : (c.query.since s.curIndex).answer (liveFiles here) = none)
    (hgo : ∀ m, Finds c as file ((Child.advance c { s with
      look := { s.look with buffer := m, curFatsector := 0 }
      curIndex := s.curIndex + UInt32.ofNat (liveFiles here).length }).map id (n + 1, ·))) : Finds c as file (.inr (n, s)) := by
  obtain ⟨hlo, hhi, hsize⟩ := hm.size_le
  refine sector_turn hm hpc (hsec ▸ parsed.read) fun m hag => ?_
  rw [hsec] at hag
  rcases left with full | ⟨slot, rfl⟩
  · obtain ⟨m', fuel, -, -, hscan⟩ := sector_pass (r := 0) hm hlays parsed miss full hag
    rw [hscan, show UInt16.ofNat 0 = 0 from rfl, scan_over]
    exact hgo m'
  · obtain ⟨m', fuel, hfuel, hag', hscan⟩ := sector_pass (r := 1) hm hlays parsed miss slot hag
    obtain ⟨fuel, rfl⟩ := Nat.exists_eq_succ_of_ne_zero (show fuel ≠ 0 by omega)
    have hend := hlays.ends
    rw [append_nil, length_cons, add_mul, dirMem_head (by omega)] at hend
    have hzero : m' (32 * entryCount here) = 0 := (hag' _ (le_refl _) (by omega)).trans (hend (by omega))
    rw [hscan, show UInt16.ofNat 1 = 1 from rfl, scan_last hzero]
    exact hgo m'

theorem Lays.next (hm : Mounted c.dev c.fat) {p' : ℕ × ℕ} (h : Lays c.dev.disk (p :: p' :: ps) (here ++ more))
    (left : Left c here (more = [] ∧ sectorMem c.dev.disk p'.2 0 = 0)) : Lays c.dev.disk (p' :: ps) more := by
  obtain ⟨hlo, hhi, hsize⟩ := hm.size_le
  rcases left with full | ⟨-, rfl, hzero⟩
  · exact h.tail hsize (by omega) full
  · refine ⟨by simp, holds_nil _ _, Nat.zero_le _, fun _ => ?_⟩
    exact (dirMem_head (show 0 < bytsPerSec c.dev.disk by omega)).trans hzero

end Pass

/-- **Where the way to the answer is clear, the search finds it.** -/
theorem path_finds (hv : Valid c.dev.disk) {fsinfo : ℕ} (hmount : parseDbr c.dev.disk c.dev.blockSize fsinfo = some c.fat)
    {spots : List (ℕ × ℕ)} {q : Query} {its : List Item} (h : Path c spots q its) : ∀ {s : Child} {n : ℕ}, Strung c.dev.disk spots →
    Lays c.dev.disk spots its → s.pc = .sector → (∀ p ∈ spots.head?, s.look.entry = p.1 ∧ s.curSector = p.2) →
    c.query.since s.curIndex = q → Finds c as (q.answer (liveFiles its)) (.inr (n, s)) := by
  have hm := mounted_of_parse hv hmount
  induction h with
  | @hit p ps q pre b post parsed miss found =>
    intro s n _ hlays hpc hat hq
    obtain ⟨f, hf⟩ := ne_none_iff_exists'.mp found
    have hans : q.answer (liveFiles (pre ++ .short b :: post)) = some f := by
      rw [show pre ++ .short b :: post = pre ++ [.short b] ++ post by simp, liveFiles_append]
      exact q.answer_mono hf
    rw [hans]
    subst hq
    exact hit_finds hm hlays parsed hpc (hat p rfl).2 miss hf
  | @ended p ps q its parsed room miss =>
    intro s n _ hlays hpc hat hq
    rw [miss]
    subst hq
    exact ended_finds hm hlays parsed hpc (hat p rfl).2 room miss
  | @cut p ps q pre b post parsed slot miss =>
    intro s n _ hlays hpc hat hq
    rw [miss]
    rw [liveFiles_append] at miss
    subst hq
    exact cut_finds hm hlays parsed hpc (hat p rfl).2 slot (Query.answer_front _ miss)
  | @onward p p' ps q here more parsed left miss on rest ih =>
    intro s n hstrung hlays hpc hat hq
    obtain ⟨hentry, hsec⟩ := hat p rfl
    obtain ⟨hcomes, hstrung'⟩ := hstrung.tail
    rw [liveFiles_append, Query.answer_append _ miss]
    subst hq
    refine left_finds hm hlays parsed hpc hsec (left.imp_right fun h => ⟨h.1, h.2.1⟩) miss fun m => ?_
    refine onward_finds hv hmount hcomes on parsed.read rest.readable hentry hsec rfl fun n' s' hpc' hentry' hsec' hindex => ?_
    refine ih hstrung' (hlays.next hm left) hpc' (fun x hx => ?_) ?_
    · obtain rfl := some.inj hx
      exact ⟨hentry', hsec'⟩
    · rw [hindex]
      exact Query.since_add _ _ _
  | @last p q its parsed left miss chain hop =>
    intro s n hstrung hlays hpc hat hq
    obtain ⟨hentry, hsec⟩ := hat p rfl
    obtain ⟨h2, hnext⟩ := (hstrung.last p rfl).resolve_left chain
    have hp := placed_of_mount hv hmount hop.agrees
    rw [miss]
    subst hq
    have hlays' : Lays c.dev.disk [p] (its ++ []) := by rwa [append_nil]
    refine left_finds hm hlays' parsed hpc hsec (left.imp_right fun h => ⟨h.1, rfl⟩) miss fun m => ?_
    refine hop_finds hm hp hop h2 hentry hsec rfl fun n' l hl => ?_
    rw [looked_last hp hl hnext]
    exact .over (.inl rfl)

/-! ### The directory -/

theorem spotsFrom_cluster {cluster : ℕ} : ∀ {n sector : ℕ}, ∀ p ∈ spotsFrom cluster sector n, p.1 = cluster
  | 0, _, _, hp => absurd hp not_mem_nil
  | n + 1, sector, p, hp => by
    rcases mem_cons.mp hp with rfl | hp
    · rfl
    · exact spotsFrom_cluster p hp

theorem spotsFrom_chain (m : Mem) (cluster : ℕ) : ∀ n sector : ℕ, (spotsFrom cluster sector n).IsChain (Comes m)
  | 0, _ => .nil
  | 1, _ => .singleton _
  | n + 2, sector => isChain_cons_cons.mpr ⟨.inl ⟨rfl, rfl⟩, spotsFrom_chain m cluster (n + 1) (sector + 1)⟩

theorem spotsFrom_head {cluster sector n : ℕ} (h : n ≠ 0) : (spotsFrom cluster sector n).head? = some (cluster, sector) := by
  obtain ⟨k, rfl⟩ := Nat.exists_eq_succ_of_ne_zero h
  rfl

theorem rootSpots_strung (m : Mem) : Strung m (rootSpots m) :=
  ⟨spotsFrom_chain m 0 _ _, fun p hp => .inl (spotsFrom_cluster p (mem_of_mem_getLast? hp))⟩

theorem chainSpots_head {m : Mem} (hpos : secPerClus m ≠ 0) (cl : ℕ) (cs : List ℕ) :
    (chainSpots m (cl :: cs)).head? = some (cl, sectorOf m cl) := by
  rw [chainSpots, flatMap_cons, head?_append, spotsFrom_head hpos]
  rfl

theorem chainSpots_strung {m : Mem} (hpos : secPerClus m ≠ 0) : ∀ {cs : List ℕ} {x : Option ℕ}, Bpb.Chain m x cs → Strung m (chainSpots m cs)
  | [], _, _ => ⟨.nil, fun _ hp => absurd hp (by simp [chainSpots])⟩
  | cl :: cs, x, h => by
    have hnodup := h.chain.nodup
    obtain ⟨-, hchain⟩ := Linked.chain_cons.mp h.chain
    have hrange := h.range cl mem_cons_self
    have hrest : Bpb.Chain m (next m cl) cs := ⟨hchain, fun y hy => h.range y (mem_cons_of_mem _ hy)⟩
    have ih := chainSpots_strung hpos hrest
    have heq : chainSpots m (cl :: cs) = spotsFrom cl (sectorOf m cl) (secPerClus m) ++ chainSpots m cs := rfl
    have hcl : ∀ p ∈ (spotsFrom cl (sectorOf m cl) (secPerClus m)).getLast?, p.1 = cl := fun p hp =>
      spotsFrom_cluster p (mem_of_mem_getLast? hp)
    rw [heq]
    cases cs with
    | nil =>
      rw [show chainSpots m [] = [] from rfl, append_nil]
      refine ⟨spotsFrom_chain m _ _ _, fun p hp => .inr ?_⟩
      rw [hcl p hp]
      exact ⟨hrange.1, Linked.chain_nil.mp hchain⟩
    | cons cl' cs =>
      have hhead := chainSpots_head hpos cl' cs
      have hnext : next m cl = some cl' := (Linked.chain_cons.mp hchain).1
      have hrange' := h.range cl' (mem_cons_of_mem _ mem_cons_self)
      have hne : cl' ≠ cl := fun he => (nodup_cons.mp hnodup).1 (he ▸ mem_cons_self)
      refine ⟨isChain_append.mpr ⟨spotsFrom_chain m _ _ _, ih.chain, fun p hp p' hp' => ?_⟩, fun p hp => ?_⟩
      · obtain rfl := some.inj (hhead.symm.trans hp')
        right
        rw [hcl p hp]
        exact ⟨hne, hrange.1, hnext, hrange', rfl⟩
      · refine ih.last p ?_
        rw [getLast?_append] at hp
        cases hlast : (chainSpots m (cl' :: cs)).getLast? with
        | none =>
          rw [getLast?_eq_none_iff.mp hlast] at hhead
          cases hhead
        | some y =>
          rw [hlast] at hp
          exact hp

/-- **A search of a directory ends** with the file or with none, if the way is clear. -/
theorem getchild_right {spots : List (ℕ × ℕ)} {its : List Item} (hd : DirOn c spots its) (hmeets : ChildMeets c spots its)
    (as : ℕ → Answer) (look : Lookup) : ∃ r, Getchild c as look r ∧ ChildRight as (c.query.answer (liveFiles its)) r := by
  obtain ⟨hstart, hpath⟩ := hmeets
  obtain ⟨fsinfo, hmount⟩ := hd.mounted
  have hm := mounted_of_parse hd.valid hmount
  obtain ⟨hlo, -, -⟩ := hm.size_le
  have hfinds : ∀ sector, (∀ p ∈ spots.head?, c.firstCluster = p.1 ∧ sector = p.2) → Strung c.dev.disk spots →
      Finds c as (c.query.answer (liveFiles its)) (.inr (0, ⟨.sector, { look with entry := c.firstCluster }, sector, 0xFFFFFFFF⟩)) :=
    fun sector hat hstrung => path_finds hd.valid hmount hpath hstrung hd.lays rfl hat c.query.since_start
  unfold Getchild Child.enter
  rcases hd.place with ⟨hzero, htype, rfl⟩ | ⟨cs, hchain, rfl⟩
  · have hroot : rootEntCnt c.dev.disk ≠ 0 := fun h => htype (hd.valid.root.mpr h)
    have hsectors : rootDirSectors c.dev.disk ≠ 0 := by
      rw [rootDirSectors]
      exact (Nat.div_pos (by omega) (by omega)).ne'
    have hhead : (rootSpots c.dev.disk).head? = some (0, firstRootSector c.dev.disk) := spotsFrom_head hsectors
    have hlow : firstRootSector c.dev.disk < 2 ^ 32 := by
      obtain ⟨ps, hps⟩ := head?_eq_some_iff.mp hhead
      rw [hps] at hpath
      have hlow := hpath.readable.low
      have := (Nat.mul_le_mul_left (firstRootSector c.dev.disk + 1) hlo).trans hlow
      omega
    have htypes : ¬ (c.fat.type ≠ .fat12 ∧ c.fat.type ≠ .fat16) := fun h => (hm.root hroot).elim h.1 h.2
    rw [if_pos hzero, if_neg htypes]
    refine hfinds c.fat.rootbase (fun p hp => ?_) (rootSpots_strung _)
    obtain rfl := some.inj (hhead.symm.trans hp)
    exact ⟨hzero, hm.rootbase.trans (Nat.mod_eq_of_lt hlow)⟩
  · obtain ⟨k, -, hk⟩ := hd.valid.clus_size
    have hpos : secPerClus c.dev.disk ≠ 0 := by
      rw [hk]
      exact (Nat.two_pow_pos k).ne'
    cases cs with
    | nil => exact absurd hchain.chain (by simp [Linked.chain_nil])
    | cons cl cs =>
      have hcl : c.firstCluster = cl := some.inj (Linked.chain_cons.mp hchain.chain).1
      have hne : c.firstCluster ≠ 0 := by
        have := (hchain.range cl mem_cons_self).1
        omega
      rw [if_neg hne]
      refine hfinds _ (fun p hp => ?_) (chainSpots_strung hpos hchain)
      obtain rfl := some.inj ((chainSpots_head hpos cl cs).symm.trans hp)
      exact ⟨hcl, (hstart hne).trans (by rw [hcl])⟩

/-! ### Two searches -/

/-- Every sector is read, and there is memory. -/
def allWell : ℕ → Answer := fun _ => ⟨none, true, true⟩

def beforeList : Lookup := ⟨fun _ => 0, 0, 0, 0⟩

theorem getchild_right_first : ∃ r, Getchild (listCall 4) allWell beforeList r ∧
    ChildRight allWell (some (FatFile.read (bufMem listEntry) 0 [65])) r := by
  have hsafe : ShortSafe (sectorMem listVolume.disk 1060) 0 (bytsPerSec listVolume.disk) 0 listEntry :=
    safe_short_first (by decide +kernel) (.inl (by decide))
  refine getchild_right listCall_first ⟨fun _ => by decide +kernel, ?_⟩ allWell beforeList
  have hparsed : Parsed (listCall 4) 1060 ([] ++ [.short listEntry]) :=
    ⟨⟨by decide +kernel, by decide +kernel⟩, by decide +kernel, hsafe, trivial⟩
  have hpath : Path (listCall 4) [(4, 1060), (4, 1061)] (.index 0) ([] ++ .short listEntry :: []) :=
    .hit hparsed rfl (by decide +kernel)
  exact hpath

/-- **A sector of erased entries** hides the sectors behind it. -/
theorem getchild_breaks : ¬ ∀ (c : ChildCall) (spots : List (ℕ × ℕ)) (its : List Item) (as : ℕ → Answer) (look : Lookup),
    DirOn c spots its → ∃ r, Getchild c as look r ∧ ChildRight as (c.query.answer (liveFiles its)) r := by
  intro hall
  obtain ⟨r, hgoes, hright⟩ := hall _ _ _ allWell beforeList listCall_erased
  have hrun : Loop.run (Child.next (listCall 3) allWell) 1 (0, ⟨.sector, { beforeList with entry := 3 }, 1058, 0xFFFFFFFF⟩) =
      some (.notAvailable, none) := by decide +kernel
  have henter : Child.enter (listCall 3) beforeList = .inr ⟨.sector, { beforeList with entry := 3 }, 1058, 0xFFFFFFFF⟩ := rfl
  rw [Getchild, henter] at hgoes
  obtain rfl := Loop.Ends.unique hgoes ⟨1, hrun⟩
  have hanswer : (listCall 3).query.answer (liveFiles (List.replicate 16 (.skip erasedEntry) ++ [.short listEntry])) ≠ none := by
    decide +kernel
  obtain ⟨f, hf⟩ := ne_none_iff_exists'.mp hanswer
  rw [hf] at hright
  rcases hright with h | ⟨h, -⟩ | ⟨h, -⟩
  · cases h
  · cases h
  · cases h

end Fat
end Vsf
