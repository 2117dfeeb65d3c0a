/-
# The geometry of a volume

What `vsffat_parse_dbr` makes of every boot sector. A volume with clusters of one sector is refused;
the root directory is counted as if an entry was the 32nd part of a byte; the type goes by the
sectors behind the reserved ones, tables included; and clusters are counted from the root
directory's, not from 2.
-/
import Mathlib
import Vsf.File.FatRead

namespace Vsf
namespace Fat

open ByteMem Bpb

/-- What `vsffat_parse_dbr` leaves in `struct vsffat_t`. -/
structure Computed (m : Mem) (fat : Fat) : Prop where
  fatbase : fat.fatbase = rsvdSecCnt m
  rootsize : fat.rootsize = if rootEntCnt m ≠ 0 then (rootEntCnt m / 32 + bytsPerSec m - 1) / bytsPerSec m else 0
  database : fat.database = (firstRootSector m + fat.rootsize) % 2 ^ 32
  clustersize : 2 ^ fat.clustersizeBits = secPerClus m
  type : fat.type = if rootEntCnt m = 0 then .fat32 else if (totSec m - rsvdSecCnt m) / secPerClus m < 4085 then .fat12 else .fat16
  rootCluster : fat.rootCluster = if rootEntCnt m = 0 then rootClus m else 0

/-- The geometry is the one of the specification. -/
structure Geometry (m : Mem) (fat : Fat) : Prop where
  fatbase : fat.fatbase = rsvdSecCnt m
  rootsize : fat.rootsize = rootDirSectors m
  database : fat.database = firstDataSector m
  type : fat.type = fatType m
  clus2sec : ∀ n, 2 ≤ n → n < 2 ^ 32 → fat.clus2sec n = sectorOf m n % 2 ^ 32
  clusters : ∀ n, 2 ≤ n → n < countOfClusters m + 2 → fat.clus2sec n = sectorOf m n

/-- Where the code is right: more than one sector in a cluster, no root directory or one of 32 entries to
one sector, the same type from all sectors, and cluster 2 for the root of FAT32. -/
structure Regular (m : Mem) : Prop where
  clus : secPerClus m ≠ 1
  root : rootEntCnt m = 0 ∨ 32 ≤ rootEntCnt m ∧ rootEntCnt m * 32 ≤ bytsPerSec m
  type : rootEntCnt m ≠ 0 → ((totSec m - rsvdSecCnt m) / secPerClus m < 4085 ↔ countOfClusters m < 4085)
  base : rootEntCnt m = 0 → 2 ^ 32 ∣ (rootClus m - 2) * secPerClus m

variable {m : Mem} {fat : Fat} {blockSize fsinfo : ℕ}

/-! ### Numbers -/

theorem bytsPerSec_cases (hv : Valid m) : bytsPerSec m = 512 ∨ bytsPerSec m = 1024 ∨ bytsPerSec m = 2048 ∨ bytsPerSec m = 4096 := by
  simpa using hv.sec_size

theorem totSec_lt (m : Mem) : totSec m < 2 ^ 32 := by
  have h16 : totSec16 m < 2 ^ 16 := load16_lt m 19
  have h32 : totSec32 m < 2 ^ 32 := load32_lt m 32
  unfold totSec
  split_ifs <;> omega

theorem firstRootSector_lt (hv : Valid m) : firstRootSector m + rootDirSectors m < 2 ^ 32 :=
  hv.sectors.trans_lt (totSec_lt m)

theorem rsvdSecCnt_le (hv : Valid m) : rsvdSecCnt m ≤ totSec m := by
  have h := hv.sectors
  unfold firstDataSector firstRootSector at h
  omega

theorem sectorOf_lt (hv : Valid m) {n : ℕ} (hn : n < countOfClusters m + 2) : sectorOf m n < 2 ^ 32 := by
  have hle : (n - 2) * secPerClus m ≤ countOfClusters m * secPerClus m := Nat.mul_le_mul_right _ (by omega)
  have hcount : countOfClusters m * secPerClus m ≤ totSec m - firstDataSector m := Nat.div_mul_le_self _ _
  have hsectors := hv.sectors
  have htot := totSec_lt m
  unfold sectorOf
  omega

/-- **The sectors of the root directory** are right just when it is empty, or has 32 entries to one sector. -/
theorem rootsize_iff (hv : Valid m) : (if rootEntCnt m ≠ 0 then (rootEntCnt m / 32 + bytsPerSec m - 1) / bytsPerSec m else 0) =
    rootDirSectors m ↔ rootEntCnt m = 0 ∨ 32 ≤ rootEntCnt m ∧ rootEntCnt m * 32 ≤ bytsPerSec m := by
  unfold rootDirSectors
  by_cases hzero : rootEntCnt m = 0
  · have hnone : (0 * 32 + (bytsPerSec m - 1)) / bytsPerSec m = 0 := by
      have hsize := bytsPerSec_cases hv
      exact Nat.div_eq_of_lt (by omega)
    rw [if_neg (not_not.mpr hzero), hzero, hnone]
    exact iff_of_true rfl (.inl rfl)
  · rw [if_pos hzero]
    -- fewer entries are counted as no sector, more as too few
    rcases bytsPerSec_cases hv with hb | hb | hb | hb
    all_goals
      rw [hb]
      omega

/-! ### The clusters -/

/-- The cluster that is counted as the first one of the data. -/
def baseClus (m : Mem) : ℕ := if rootEntCnt m = 0 then rootClus m else 2

theorem baseClus_range (hv : Valid m) : 2 ≤ baseClus m ∧ baseClus m < 2 ^ 32 := by
  unfold baseClus
  split_ifs with hzero
  · exact ⟨(hv.fat32 (hv.root.mpr hzero)).2.2, load32_lt m 44⟩
  · exact ⟨le_rfl, by decide⟩

theorem Computed.clus2sec_eq (h : Computed m fat) (hv : Valid m) (n : ℕ) :
    fat.clus2sec n = (fat.database + (n + 2 ^ 32 - baseClus m) % 2 ^ 32 * secPerClus m) % 2 ^ 32 := by
  have hbase : (if fat.rootCluster ≠ 0 then fat.rootCluster else 2) = baseClus m := by
    have hrange := baseClus_range hv
    unfold baseClus at hrange ⊢
    rw [h.rootCluster]
    split_ifs at hrange ⊢ <;> simp_all
  unfold clus2sec
  rw [hbase, h.clustersize]

/-- From another cluster the sectors are the same if the difference wraps to nothing. -/
theorem wrap_iff {b s w n : ℕ} (hb : 2 ≤ b) (hbw : b < w) (hn : 2 ≤ n) : (n + w - b) % w * s ≡ (n - 2) * s [MOD w] ↔ w ∣ (b - 2) * s := by
  have hsum : (n + w - b) * s + (b - 2) * s = (n - 2) * s + w * s := by
    rw [← add_mul, ← add_mul]
    congr 1
    omega
  have hmod : (n + w - b) % w * s ≡ (n + w - b) * s [MOD w] := (Nat.mod_modEq _ _).mul_right s
  have hw : w * s ≡ 0 [MOD w] := Nat.modEq_zero_iff_dvd.mpr (dvd_mul_right w s)
  have hall : (n + w - b) * s + (b - 2) * s ≡ (n - 2) * s + 0 [MOD w] := by
    rw [hsum]
    exact hw.add_left _
  rw [← Nat.modEq_zero_iff_dvd]
  constructor
  · intro heq
    exact Nat.ModEq.add_left_cancel (hmod.symm.trans heq) hall
  · intro hzero
    exact hmod.trans (Nat.ModEq.add_right_cancel hzero hall)

/-- **The sector of a cluster** is right for all as for the first, just when a multiple of 2^32 sectors lies
in front of the root's cluster. -/
theorem clus2sec_iff (hv : Valid m) (h : Computed m fat) (hdata : fat.database = firstDataSector m) :
    (∀ n, 2 ≤ n → n < 2 ^ 32 → fat.clus2sec n = sectorOf m n % 2 ^ 32) ↔
      (rootEntCnt m = 0 → 2 ^ 32 ∣ (rootClus m - 2) * secPerClus m) := by
  obtain ⟨hb, hlt⟩ := baseClus_range hv
  have hone : ∀ n, 2 ≤ n → (fat.clus2sec n = sectorOf m n % 2 ^ 32 ↔ 2 ^ 32 ∣ (baseClus m - 2) * secPerClus m) := by
    intro n hn
    rw [h.clus2sec_eq hv, hdata, sectorOf, ← wrap_iff hb hlt hn]
    exact ⟨fun heq => Nat.ModEq.add_left_cancel' _ heq, fun heq => heq.add_left _⟩
  have hbase : 2 ^ 32 ∣ (baseClus m - 2) * secPerClus m ↔ (rootEntCnt m = 0 → 2 ^ 32 ∣ (rootClus m - 2) * secPerClus m) := by
    unfold baseClus
    split_ifs with hzero
    · exact ⟨fun hdvd _ => hdvd, fun himp => himp hzero⟩
    · exact iff_of_true (by simp) fun h0 => absurd h0 hzero
  rw [← hbase]
  exact ⟨fun hall => (hone 2 le_rfl).mp (hall 2 le_rfl (by decide)), fun hdvd n hn _ => (hone n hn).mpr hdvd⟩

/-! ### The boot sector -/

theorem parseDbr_fat (hv : Valid m) : parseDbr m blockSize fsinfo = parseDbrFat m blockSize fsinfo := by
  rw [parseDbr, if_neg (by simp [hv.magic]), if_pos (List.any_eq_true.mpr ⟨0, by simp, by simpa using hv.jmp⟩)]

theorem parseDbr_one (hv : Valid m) (h1 : secPerClus m = 1) : parseDbr m blockSize fsinfo = none := by
  have hbits : msb (secPerClus m) = 0 := by
    rw [h1]
    decide
  rw [parseDbr_fat hv, parseDbrFat]
  rw [if_pos (.inr (.inl (.inr hbits)))]

/-- **A boot sector** with clusters of more than one sector is accepted. -/
theorem parseDbr_spec (hv : Valid m) (hb : bytsPerSec m = blockSize) (h1 : secPerClus m ≠ 1) (fsinfo : ℕ) :
    ∃ fat, parseDbr m blockSize fsinfo = some fat ∧ Computed m fat := by
  obtain ⟨k, -, hk⟩ := hv.clus_size
  have hclus : 2 ^ msb (secPerClus m) = secPerClus m := by
    rw [hk, two_pow_msb]
  have hbits : msb (secPerClus m) ≠ 0 := by
    intro hzero
    rw [hzero] at hclus
    exact h1 hclus.symm
  have hpos : secPerClus m ≠ 0 := by
    rw [hk]
    exact (Nat.two_pow_pos k).ne'
  have htot : totSec m ≠ 0 := by
    have hle := rsvdSecCnt_le hv
    have hne := hv.reserved
    omega
  have hwrap : (totSec m + 2 ^ 32 - rsvdSecCnt m) % 2 ^ 32 = totSec m - rsvdSecCnt m := by
    have hle := rsvdSecCnt_le hv
    have hlt := totSec_lt m
    omega
  have hroot : (rsvdSecCnt m + numFATs m * fatSz m) % 2 ^ 32 = firstRootSector m := by
    have hlt := firstRootSector_lt hv
    rw [Nat.mod_eq_of_lt (by unfold firstRootSector at hlt; omega), firstRootSector]
  have hguard : ¬((bytsPerSec m ≠ blockSize ∨
      (bytsPerSec m ≠ 512 ∧ bytsPerSec m ≠ 1024 ∧ bytsPerSec m ≠ 2048 ∧ bytsPerSec m ≠ 4096)) ∨
      (secPerClus m = 0 ∨ msb (secPerClus m) = 0) ∨
      rsvdSecCnt m = 0 ∨ numFATs m = 0 ∨ totSec m = 0 ∨ fatSz m = 0) := by
    have hsize := bytsPerSec_cases hv
    rintro ((hne | hne) | (h0 | h0) | h0 | h0 | h0 | h0)
    · exact hne hb
    · omega
    · exact hpos h0
    · exact hbits h0
    · exact hv.reserved h0
    · exact hv.tables.1 h0
    · exact htot h0
    · exact hv.tables.2 h0
  rw [parseDbr_fat hv, parseDbrFat]
  rw [if_neg hguard, hroot, hwrap, hclus]
  by_cases hzero : rootEntCnt m = 0
  · obtain ⟨hf, ht, hr⟩ := hv.fat32 (hv.root.mpr hzero)
    rw [if_pos hzero, if_neg (by omega)]
    exact ⟨_, rfl, rfl, rfl, rfl, hclus, by rw [if_pos hzero], by rw [if_pos hzero]⟩
  · rw [if_neg hzero]
    exact ⟨_, rfl, rfl, rfl, rfl, hclus, by rw [if_neg hzero], by rw [if_neg hzero]⟩

/-- **The geometry** of a volume is right just when it is a regular one. -/
theorem parseDbr_iff (hv : Valid m) (hb : bytsPerSec m = blockSize) (fsinfo : ℕ) :
    (∃ fat, parseDbr m blockSize fsinfo = some fat ∧ Geometry m fat) ↔ Regular m := by
  by_cases h1 : secPerClus m = 1
  · rw [parseDbr_one hv h1]
    constructor
    · rintro ⟨fat, hnone, -⟩
      cases hnone
    · exact fun hreg => absurd h1 hreg.clus
  obtain ⟨fat, hparse, hc⟩ := parseDbr_spec hv hb h1 fsinfo
  rw [hparse]
  have hroot := rootsize_iff hv
  rw [← hc.rootsize] at hroot
  have hdata : fat.rootsize = rootDirSectors m → fat.database = firstDataSector m := by
    intro hsize
    rw [hc.database, hsize, Nat.mod_eq_of_lt (firstRootSector_lt hv), firstDataSector]
  have htype : fat.type = fatType m ↔
      (rootEntCnt m ≠ 0 → ((totSec m - rsvdSecCnt m) / secPerClus m < 4085 ↔ countOfClusters m < 4085)) := by
    rw [hc.type]
    by_cases hzero : rootEntCnt m = 0
    · rw [if_pos hzero, hv.root.mpr hzero]
      exact iff_of_true rfl fun hne => absurd hzero hne
    · have hnot : fatType m ≠ .fat32 := fun h32 => hzero (hv.root.mp h32)
      rw [if_neg hzero]
      have hcode : fatType m = if countOfClusters m < 4085 then .fat12 else .fat16 := by
        unfold fatType at hnot ⊢
        split_ifs at hnot ⊢ <;> first | rfl | exact absurd rfl hnot
      rw [hcode]
      by_cases hcode12 : (totSec m - rsvdSecCnt m) / secPerClus m < 4085 <;> by_cases h12 : countOfClusters m < 4085 <;>
        simp [hcode12, h12, hzero]
  constructor
  · rintro ⟨_, hsome, hg⟩
    obtain rfl := Option.some.inj hsome
    exact ⟨h1, hroot.mp hg.rootsize, htype.mp hg.type, (clus2sec_iff hv hc hg.database).mp hg.clus2sec⟩
  · intro hreg
    have hsize := hroot.mpr hreg.root
    have hsector := (clus2sec_iff hv hc (hdata hsize)).mpr hreg.base
    refine ⟨fat, rfl, hc.fatbase, hsize, hdata hsize, htype.mpr hreg.type, hsector, fun n h2 hn => ?_⟩
    have hcount : n < 2 ^ 32 := by
      have hroom := hv.count
      have hmax : maxEntry m < 2 ^ 28 := Nat.mod_lt _ (by decide)
      omega
    rw [hsector n h2 hcount, Nat.mod_eq_of_lt (sectorOf_lt hv hn)]

theorem parseDbr_small : ∃ fat, parseDbr smallVolume.disk 512 0 = some fat ∧ Geometry smallVolume.disk fat := by
  obtain ⟨hclus, hroot, hbase⟩ : secPerClus smallVolume.disk = 2 ∧ rootEntCnt smallVolume.disk = 0 ∧ rootClus smallVolume.disk = 2 := by
    decide +kernel
  refine (parseDbr_iff smallVolume_valid (by decide +kernel) 0).mpr ⟨by rw [hclus]; decide, .inl hroot, absurd hroot, fun _ => ?_⟩
  rw [hbase]
  exact dvd_zero _

/-- One sector is counted for them, in place of 32. -/
theorem parseDbr_entries : ¬∀ (m : Mem) (blockSize fsinfo : ℕ), Valid m → bytsPerSec m = blockSize →
    ∃ fat, parseDbr m blockSize fsinfo = some fat ∧ Geometry m fat := by
  intro hall
  obtain ⟨fat, hparse, hg⟩ := hall fat16Disk 512 0 fat16Disk_valid (by decide +kernel)
  have hone : (parseDbr fat16Disk 512 0).map Fat.rootsize = some 1 := by decide +kernel
  have hmany : rootDirSectors fat16Disk = 32 := by decide +kernel
  rw [hparse, Option.map_some, hg.rootsize, hmany] at hone
  exact absurd hone (by decide)

end Fat
end Vsf
