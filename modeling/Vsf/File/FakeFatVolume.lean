/-
# A FAT32 volume that is never stored: it reads as a stored one

After `fakefat32_init` the two FATs are the same, the chain of a file visits its clusters, its
sectors are its contents, and other clusters are free, if the volume ends below 4 GiB. A sector of
the FAT is made by a loop that looks a file up only where one ends (`fatFiles_eq`).
-/
import Mathlib
import Vsf.File.FakeFatRead

namespace Vsf
namespace FakeFat

open File List Option UInt32

variable {p : Param} {f : Node} {a b : ℕ} {n : ℕ} {cur : Option (UInt32 × UInt32)} {idx : UInt32}

/-! ### The words of the FAT -/

theorem add_ofNat_succ (idx : UInt32) (k : ℕ) : idx + 1 + UInt32.ofNat k = idx + UInt32.ofNat (k + 1) := by
  rw [UInt32.add_assoc]
  congr 1
  apply UInt32.toNat_inj.mp
  simp only [UInt32.toNat_add, toNat_ofNat', toNat_one]
  omega

theorem toNat_add_ofNat {idx : UInt32} {k : ℕ} (h : idx.toNat + k < 2 ^ 32) : (idx + UInt32.ofNat k).toNat = idx.toNat + k := by
  rw [UInt32.toNat_add, toNat_ofNat', Nat.mod_eq_of_lt (a := k) (by omega)]
  exact Nat.mod_eq_of_lt h

theorem fatFile_none (idx : UInt32) (h : Laid p a p.tree b) (hb : b < 2 ^ 32) :
    (fatFile p none idx = none ∧ ∀ f ∈ p.tree.nodes, ¬ Has p f idx.toNat) ∨
    ∃ f ∈ p.tree.nodes, Has p f idx.toNat ∧ fatFile p none idx = some (idx - f.firstCluster, fileClusters p f) := by
  rcases h.find idx [] hb with ⟨o, ho, hmem, hhas⟩ | ⟨hnone, hno⟩
  · exact .inr ⟨o.file, hmem, hhas, by simp [fatFile, ho]⟩
  · exact .inl ⟨by simp [fatFile, hnone], hno⟩

theorem fatFile_of_has (h : Laid p a p.tree b) (hb : b < 2 ^ 32) (hf : f ∈ p.tree.nodes) (hhas : Has p f idx.toNat) :
    fatFile p none idx = some (idx - f.firstCluster, fileClusters p f) := by
  rcases fatFile_none idx h hb with ⟨_, hno⟩ | ⟨g, hg, hghas, heq⟩
  · exact absurd hhas (hno f hf)
  · rw [heq, h.unique hf hg hhas hghas]

/-- The file that the loop is in, and the place of `idx` in it. -/
def Inside (p : Param) (cur : Option (UInt32 × UInt32)) (idx : UInt32) : Prop :=
  ∀ o c, cur = some (o, c) → ∃ f ∈ p.tree.nodes, fileClusters p f = c ∧ f.firstCluster.toNat + o.toNat = idx.toNat

theorem toNat_place (hhas : Has p f idx.toNat) : (idx - f.firstCluster).toNat = idx.toNat - f.firstCluster.toNat := by
  rw [UInt32.toNat_sub_of_le]
  rw [le_iff_toNat_le]
  exact hhas.1

theorem fatFile_eq (h : Laid p a p.tree b) (hb : b < 2 ^ 32) (hcur : Inside p cur idx) : fatFile p cur idx = fatFile p none idx := by
  rcases cur with _ | ⟨o, c⟩
  · rfl
  by_cases hlt : o < c
  · obtain ⟨f, hf, rfl, hplace⟩ := hcur o c rfl
    rw [lt_iff_toNat_lt] at hlt
    have hhas : Has p f idx.toNat := ⟨by omega, by omega⟩
    have ho : idx - f.firstCluster = o := by
      apply UInt32.toNat_inj.mp
      rw [toNat_place hhas]
      omega
    rw [fatFile_of_has h hb hf hhas, ho, fatFile, filter_some, if_pos (decide_eq_true (lt_iff_toNat_lt.mpr hlt))]
  · rw [fatFile, filter_some, if_neg fun h => hlt (of_decide_eq_true h)]
    rfl

/-- The word of a cluster. -/
def fatEntry (p : Param) (idx : UInt32) : UInt32 :=
  match fatFile p none idx with
  | none => 0
  | some (o, c) => if o = c - 1 then fatFileend else idx + 1

/-- **The loop makes the word of each cluster.** -/
theorem fatFiles_eq (h : Laid p a p.tree b) (hb : b < 2 ^ 32) : ∀ (n : ℕ) (cur : Option (UInt32 × UInt32)) (idx : UInt32),
    Inside p cur idx → idx.toNat + n < 2 ^ 32 →
    fatFiles p n cur idx = (List.range n).map fun k => fatEntry p (idx + UInt32.ofNat k)
  | 0, _, _, _, _ => rfl
  | n + 1, cur, idx, hcur, hn => by
    have hnext : (idx + 1).toNat = idx.toNat + 1 := by
      rw [UInt32.toNat_add, toNat_one]
      exact Nat.mod_eq_of_lt (by omega)
    have hrest : ∀ cur', Inside p cur' (idx + 1) →
        fatFiles p n cur' (idx + 1) = (List.range n).map fun k => fatEntry p (idx + UInt32.ofNat (k + 1)) := by
      intro cur' hcur'
      rw [fatFiles_eq h hb n cur' (idx + 1) hcur' (by omega)]
      simp only [add_ofNat_succ]
    rw [range_succ_eq_map, map_cons, List.map_map]
    unfold fatFiles
    rw [fatFile_eq h hb hcur]
    rcases fatFile_none idx h hb with ⟨hnone, _⟩ | ⟨f, hf, hhas, hsome⟩
    · rw [hnone]
      rw [hrest none fun _ _ hc => nomatch hc]
      simp [fatEntry, hnone, Function.comp_def]
    · rw [hsome]
      dsimp only
      rw [hrest]
      · simp [fatEntry, hsome, Function.comp_def]
      · intro o c hc
        obtain ⟨rfl, rfl⟩ := Prod.mk.inj (some.inj hc)
        refine ⟨f, hf, rfl, ?_⟩
        rw [UInt32.toNat_add, toNat_place hhas, hnext, toNat_one, Nat.mod_eq_of_lt (by omega)]
        have := hhas.1
        omega

/-- The words of a sector of the FAT: those before the root directory are marks. -/
def fatWord (p : Param) (idx : UInt32) : UInt32 :=
  if idx < rootCluster p then (if idx = 0 then fatStart else fatInvalid) else fatEntry p idx

theorem fatWords_eq (h : Laid p a p.tree b) (hb : b < 2 ^ 32) : ∀ (n : ℕ) (idx : UInt32), idx.toNat + n < 2 ^ 32 →
    fatWords p n idx = (List.range n).map fun k => fatWord p (idx + UInt32.ofNat k)
  | 0, _, _ => rfl
  | n + 1, idx, hn => by
    unfold fatWords
    by_cases hroot : idx < rootCluster p
    · have hnext : (idx + 1).toNat = idx.toNat + 1 := toNat_add_ofNat (k := 1) (by omega)
      rw [if_pos hroot, fatWords_eq h hb n (idx + 1) (by omega), range_succ_eq_map, map_cons, List.map_map]
      have hhead : fatWord p (idx + UInt32.ofNat 0) = if idx = 0 then fatStart else fatInvalid := by
        have h0 : idx + UInt32.ofNat 0 = idx := UInt32.add_zero idx
        rw [h0, fatWord, if_pos hroot]
      rw [hhead]
      simp only [add_ofNat_succ, Function.comp_def, Nat.succ_eq_add_one]
    · rw [if_neg hroot, fatFiles_eq h hb (n + 1) none idx (fun _ _ hc => nomatch hc) hn]
      apply map_congr_left
      intro k hk
      have hlt : ¬ idx + UInt32.ofNat k < rootCluster p := by
        rw [lt_iff_toNat_lt] at hroot ⊢
        have := List.mem_range.mp hk
        rw [toNat_add_ofNat (by omega)]
        omega
      rw [fatWord, if_neg hlt]

/-! ### Reading the FAT -/

/-- The address of a sector. -/
def sectorAddr (p : Param) (block : ℕ) : UInt64 := UInt64.ofNat (block * p.sectorSize.toNat)

/-- The volume that is read. -/
def volume (p : Param) (blockNum : UInt64) : Mal := ⟨p, p.sectorSize.toUInt64, blockNum⟩

variable {bn : UInt64} {buff : List UInt8}

theorem pageSize_volume : (volume p bn).pageSize = p.sectorSize.toUInt32 := by
  apply UInt32.toNat_inj.mp
  have h := p.sectorSize.toNat_lt
  simp only [volume, Mal.pageSize, UInt64.toNat_toUInt32, UInt16.toNat_toUInt64, UInt16.toNat_toUInt32]
  omega

theorem blockAddr_volume {block : ℕ} (bn : UInt64) (hs : 0 < p.sectorSize.toNat) (h : block * p.sectorSize.toNat < 2 ^ 32) :
    ((volume p bn).blockAddr (sectorAddr p block)).toNat = block := by
  rw [Mal.blockAddr, pageSize_volume, UInt32.toNat_div, UInt64.toNat_toUInt32, UInt16.toNat_toUInt32, sectorAddr,
    UInt64.toNat_ofNat', Nat.mod_eq_of_lt (a := block * p.sectorSize.toNat) (by omega), Nat.mod_eq_of_lt h]
  exact Nat.mul_div_cancel _ hs

/-- The word of a cluster in the copy `j` of the FAT, as it is read. -/
def fatRead (m : Mal) (buff : List UInt8) (j c : ℕ) : UInt32 :=
  let p := m.param
  let words := p.sectorSize.toNat / 4
  let block := (hiddenSectors p).toNat + (resSectors p).toNat + j * (calcFatSectors p).toNat + c / words
  LE.get32 (malRead m (sectorAddr p block) buff).2.1 (4 * (c % words))

theorem Geometry.fat_below (g : Geometry p) {j s : ℕ} (hj : j < 2) (hs : s < (calcFatSectors p).toNat) :
    80 + j * (calcFatSectors p).toNat + s < 80 + 2 * (calcFatSectors p).toNat ∧
      (80 + j * (calcFatSectors p).toNat + s) * p.sectorSize.toNat < 2 ^ 32 := by
  have hss := g.sector
  have hroom := g.room
  have hjs := Nat.mul_le_mul_right (calcFatSectors p).toNat (Nat.le_of_lt_succ hj)
  refine ⟨by omega, lt_of_lt_of_le (Nat.mul_lt_mul_of_pos_right ?_ (by omega)) g.below⟩
  omega

/-- A sector of the FAT has the words of its clusters, in both copies. -/
theorem fatSector_eq (g : Geometry p) (h : Laid p a p.tree b) (hb : b < 2 ^ 32) {block : UInt32} {j s : ℕ} (hj : j < 2)
    (hs : s < (calcFatSectors p).toNat) (hblock : block.toNat = 80 + j * (calcFatSectors p).toNat + s) :
    fatSector p block p.sectorSize.toUInt32 = ((List.range (p.sectorSize.toNat / 4)).map fun k =>
      fatWord p (UInt32.ofNat (s * (p.sectorSize.toNat / 4) + k))).flatMap LE.bytes32 := by
  have hbelow := (g.fat_below hj hs).2
  obtain ⟨w, hw⟩ := g.words
  have hdiv : p.sectorSize.toNat / 4 = w := by omega
  have hsw : s * w + w < 2 ^ 32 := by
    have h1 : (s + 1) * p.sectorSize.toNat ≤ (80 + j * (calcFatSectors p).toNat + s) * p.sectorSize.toNat :=
      Nat.mul_le_mul_right _ (by omega)
    have h2 : (s + 1) * p.sectorSize.toNat = 4 * (s * w + w) := by
      rw [hw]
      ring
    omega
  have hpage : (p.sectorSize.toUInt32 / 4).toNat = w := by
    rw [UInt32.toNat_div, UInt16.toNat_toUInt32, hw]
    exact Nat.mul_div_cancel_left w (by decide)
  have hsub : (block - hiddenSectors p - resSectors p).toNat = j * (calcFatSectors p).toNat + s := by
    have := block.toNat_lt
    rw [g.boot.hidden, g.boot.res, UInt32.toNat_sub, UInt32.toNat_sub]
    simp only [UInt32.reduceToNat]
    omega
  have hidx : (block - hiddenSectors p - resSectors p) % calcFatSectors p * (p.sectorSize.toUInt32 / 4) = UInt32.ofNat (s * w) := by
    apply UInt32.toNat_inj.mp
    rw [UInt32.toNat_mul, UInt32.toNat_mod, hsub, hpage, add_comm, Nat.add_mul_mod_self_right, Nat.mod_eq_of_lt hs,
      toNat_ofNat']
  have hnat : (UInt32.ofNat (s * w)).toNat = s * w := by
    rw [toNat_ofNat']
    exact Nat.mod_eq_of_lt (by omega)
  rw [fatSector, hidx, hpage, fatWords_eq h hb w (UInt32.ofNat (s * w)) (by omega), hdiv]
  simp only [ofNat_add]

theorem malRead_fat (bn : UInt64) (g : Geometry p) (h : Laid p a p.tree b) (hb : b < 2 ^ 32) (hbuff : buff.length = p.sectorSize.toNat)
    {j s : ℕ} (hj : j < 2) (hs : s < (calcFatSectors p).toNat) :
    malRead (volume p bn) (sectorAddr p (80 + j * (calcFatSectors p).toNat + s)) buff =
      (.none, ((List.range (p.sectorSize.toNat / 4)).map fun k =>
        fatWord p (UInt32.ofNat (s * (p.sectorSize.toNat / 4) + k))).flatMap LE.bytes32, volume p bn) := by
  have hss := g.sector
  have hwords := g.words
  obtain ⟨hend, hbelow⟩ := g.fat_below hj hs
  have hblock := blockAddr_volume bn (by omega) hbelow
  have hsys := sysRead_behind p.sectorSize.toUInt32 buff g.boot g.sector
    (show 80 ≤ ((volume p bn).blockAddr (sectorAddr p (80 + j * (calcFatSectors p).toNat + s))).toNat by omega)
  have hzero : LE.put buff 0 (List.replicate p.sectorSize.toUInt32.toNat 0) = List.replicate p.sectorSize.toUInt32.toNat 0 :=
    LE.put_all (by rw [length_replicate, UInt16.toNat_toUInt32, hbuff])
  rw [if_pos (by omega), fatSector_eq g h hb hj hs hblock, hzero, LE.put_all] at hsys
  · unfold malRead
    rw [pageSize_volume, show (volume p bn).param = p from rfl, hsys]
  · rw [LE.length_words, length_map, length_range, length_replicate, UInt16.toNat_toUInt32]
    omega

/-- **Both copies of the FAT have the word of each cluster.** -/
theorem fatRead_eq (g : Geometry p) (h : Laid p a p.tree b) (hb : b < 2 ^ 32) (hbuff : buff.length = p.sectorSize.toNat)
    {j c : ℕ} (hj : j < 2) (hc : c < (calcFatSectors p).toNat * (p.sectorSize.toNat / 4)) :
    fatRead (volume p bn) buff j c = fatWord p (UInt32.ofNat c) := by
  have hss := g.sector
  have hw : 0 < p.sectorSize.toNat / 4 := by omega
  have hs : c / (p.sectorSize.toNat / 4) < (calcFatSectors p).toNat := Nat.div_lt_of_lt_mul (by rwa [mul_comm] at hc)
  have hmod := Nat.mod_lt c hw
  unfold fatRead
  dsimp only
  rw [show (volume p bn).param = p from rfl, g.boot.hidden, g.boot.res, show (64 : UInt32).toNat + (16 : UInt32).toNat = 80 from rfl,
    malRead_fat bn g h hb hbuff hj hs, LE.get32_words _ _ (by rwa [length_map, length_range])]
  rw [getD_eq_getElem _ _ (by rwa [length_map, length_range]), getElem_map, getElem_range,
    mul_comm, Nat.div_add_mod]

/-! ### The chain of a file -/

theorem fatWord_of_has (hroot : rootCluster p = 2) (h : Laid p 2 p.tree b) (hb : b < 2 ^ 32) (hf : f ∈ p.tree.nodes) {c : ℕ}
    (hhas : Has p f c) : fatWord p (UInt32.ofNat c) =
      if c + 1 = f.firstCluster.toNat + (fileClusters p f).toNat then fatFileend else UInt32.ofNat (c + 1) := by
  have hrange := h.mem_range f hf c hhas
  have hlt := (fileClusters p f).toNat_lt
  have hc : (UInt32.ofNat c).toNat = c := by
    rw [toNat_ofNat']
    exact Nat.mod_eq_of_lt (by omega)
  have hhas' : Has p f (UInt32.ofNat c).toNat := hc.symm ▸ hhas
  have hlow : ¬ UInt32.ofNat c < 2 := by
    rw [lt_iff_toNat_lt, hc]
    exact not_lt.mpr hrange.1
  have hplace := toNat_place hhas'
  have hend : UInt32.ofNat c - f.firstCluster = fileClusters p f - 1 ↔
      c + 1 = f.firstCluster.toNat + (fileClusters p f).toNat := by
    obtain ⟨hlo, hhi⟩ := hhas
    rw [← UInt32.toNat_inj, hplace, hc, UInt32.toNat_sub, toNat_one]
    omega
  have hnext : UInt32.ofNat c + 1 = UInt32.ofNat (c + 1) := (ofNat_add c 1).symm
  rw [fatWord, hroot, if_neg hlow, fatEntry, fatFile_of_has h hb hf hhas']
  simp only [hend, hnext]

theorem fatWord_free (hroot : rootCluster p = 2) (h : Laid p a p.tree b) (hb : b < 2 ^ 32) {c : ℕ} (hlo : 2 ≤ c) (hhi : c < 2 ^ 32)
    (hno : ∀ f ∈ p.tree.nodes, ¬ Has p f c) : fatWord p (UInt32.ofNat c) = 0 := by
  have hc : (UInt32.ofNat c).toNat = c := by
    rw [toNat_ofNat']
    exact Nat.mod_eq_of_lt hhi
  have hlow : ¬ UInt32.ofNat c < 2 := by
    rw [lt_iff_toNat_lt, hc]
    exact not_lt.mpr hlo
  rw [fatWord, hroot, if_neg hlow, fatEntry]
  rcases fatFile_none (UInt32.ofNat c) h hb with ⟨hnone, _⟩ | ⟨f, hf, hhas, _⟩
  · rw [hnone]
  · exact absurd (hc ▸ hhas) (hno f hf)

/-- The clusters from `c` on, up to one with an end mark; `n` bounds the steps. -/
def follow (entry : ℕ → UInt32) : ℕ → ℕ → Option (List ℕ)
  | 0, _ => none
  | n + 1, c => if entry c ≥ fatStart then some [c] else (follow entry n (entry c).toNat).map (c :: ·)

theorem follow_range {entry : ℕ → UInt32} : ∀ (n c fuel : ℕ), n + 1 ≤ fuel → c + n < fatStart.toNat →
    (∀ i < n, entry (c + i) = UInt32.ofNat (c + i + 1)) → entry (c + n) = fatFileend →
    follow entry fuel c = some (List.range' c (n + 1))
  | _, _, 0, hfuel, _, _, _ => absurd hfuel (Nat.not_succ_le_zero _)
  | 0, c, fuel + 1, _, _, _, hend => by
    have hmark : entry c ≥ fatStart := by
      rw [add_zero] at hend
      rw [hend]
      decide
    rw [follow, if_pos hmark]
    rfl
  | n + 1, c, fuel + 1, hfuel, hsmall, hgo, hend => by
    have hfs : fatStart.toNat < 2 ^ 32 := fatStart.toNat_lt
    have hnext : (entry c).toNat = c + 1 := by
      have h0 := hgo 0 (Nat.succ_pos n)
      rw [add_zero] at h0
      rw [h0, toNat_ofNat']
      exact Nat.mod_eq_of_lt (by omega)
    have hmark : ¬ entry c ≥ fatStart := by
      rw [ge_iff_le, le_iff_toNat_le, hnext]
      omega
    have hrest := follow_range n (c + 1) fuel (by omega) (by omega)
      (fun i hi => by
        have := hgo (i + 1) (by omega)
        rwa [show c + (i + 1) = c + 1 + i by omega] at this)
      (by rwa [show c + 1 + n = c + (n + 1) by omega])
    rw [follow, if_neg hmark, hnext, hrest]
    rfl

/-! ### The contents of a file -/

/-- The sector `k` of a file. -/
def fileSector (p : Param) (f : Node) (k : ℕ) : ℕ :=
  80 + 2 * (calcFatSectors p).toNat + p.sectorsPerCluster.toNat * (f.firstCluster.toNat - 2) + k

theorem Geometry.data_lt (g : Geometry p) (hfit : b ≤ 2 + dataClusters p) : b < 2 ^ 32 := by
  have hle : dataClusters p ≤ p.sectorNumber.toNat - 16 - 2 * (calcFatSectors p).toNat := Nat.div_le_self _ _
  have := g.sectors_lt
  omega

theorem Geometry.file_below (g : Geometry p) (h : Laid p 2 p.tree b) (hfit : b ≤ 2 + dataClusters p) (hf : f ∈ p.tree.nodes) {k : ℕ}
    (hk : k < (fileClusters p f).toNat * p.sectorsPerCluster.toNat) :
    Has p f (f.firstCluster.toNat + k / p.sectorsPerCluster.toNat) ∧
      fileSector p f k < p.sectorNumber.toNat + 64 ∧ fileSector p f k * p.sectorSize.toNat < 2 ^ 32 := by
  have hss := g.sector
  have hcl := g.cluster
  have hkc : k / p.sectorsPerCluster.toNat < (fileClusters p f).toNat := Nat.div_lt_of_lt_mul (by rwa [mul_comm] at hk)
  have hhas : Has p f (f.firstCluster.toNat + k / p.sectorsPerCluster.toNat) :=
    ⟨Nat.le_add_right _ _, Nat.add_lt_add_left hkc _⟩
  have hrange := h.mem_range f hf _ hhas
  have hlow := (h.mem_range f hf f.firstCluster.toNat ⟨le_refl _, Nat.lt_add_of_pos_right (Nat.zero_lt_of_lt hkc)⟩).1
  have hdata : dataClusters p * p.sectorsPerCluster.toNat ≤ p.sectorNumber.toNat - 16 - 2 * (calcFatSectors p).toNat :=
    Nat.div_mul_le_self _ _
  have hsector : p.sectorsPerCluster.toNat * (f.firstCluster.toNat - 2) + k < dataClusters p * p.sectorsPerCluster.toNat := by
    have hmod := Nat.mod_lt k hcl
    have hdm := Nat.div_add_mod k p.sectorsPerCluster.toNat
    have hle : (f.firstCluster.toNat - 2 + k / p.sectorsPerCluster.toNat + 1) * p.sectorsPerCluster.toNat ≤
        dataClusters p * p.sectorsPerCluster.toNat := Nat.mul_le_mul_right _ (by omega)
    have hexp : (f.firstCluster.toNat - 2 + k / p.sectorsPerCluster.toNat + 1) * p.sectorsPerCluster.toNat =
        p.sectorsPerCluster.toNat * (f.firstCluster.toNat - 2) + p.sectorsPerCluster.toNat * (k / p.sectorsPerCluster.toNat) +
          p.sectorsPerCluster.toNat := by ring
    omega
  have hlt : fileSector p f k < p.sectorNumber.toNat + 64 := by
    unfold fileSector
    omega
  exact ⟨hhas, hlt, lt_of_lt_of_le (mul_lt_mul_of_pos_right hlt (by omega)) g.below⟩

theorem memfsSize_eq (f : Node) (offset : UInt64) (size : UInt32) :
    memfsSize f offset size = min size.toNat (f.size.toNat - offset.toNat) := by
  unfold memfsSize
  split_ifs with h
  · rw [ge_iff_le, UInt64.le_iff_toNat_le] at h
    omega
  · rw [ge_iff_le, UInt64.le_iff_toNat_le] at h
    rw [UInt64.toNat_sub_of_le]
    rw [UInt64.le_iff_toNat_le]
    omega

/-- **A sector of a memory-backed file is the part of its contents there.** -/
theorem malRead_file (g : Geometry p) (h : Laid p 2 p.tree b) (hfit : b ≤ 2 + dataClusters p) (hf : f ∈ p.tree.nodes)
    {d : List UInt8} (hbuff : f.buff = some d) (hdir : f.isDir = false) (hwo : f.attr &&& attrWriteonly = 0) {k : ℕ}
    (hk : k < (fileClusters p f).toNat * p.sectorsPerCluster.toNat) :
    malRead (volume p bn) (sectorAddr p (fileSector p f k)) buff = (.none, LE.put buff 0 (bytesAt d (p.sectorSize.toNat * k)
      (min p.sectorSize.toNat (f.size.toNat - p.sectorSize.toNat * k))), volume p bn) := by
  have hss := g.sector
  have hcl := g.cluster
  have hsn := g.sectors_lt
  have hb := g.data_lt hfit
  obtain ⟨hhas, hlt, hbelow⟩ := g.file_below h hfit hf hk
  have hrange := h.mem_range f hf _ hhas
  have hlow := (h.mem_range f hf f.firstCluster.toNat ⟨le_refl _, hhas.1.trans_lt hhas.2⟩).1
  have hblock := blockAddr_volume bn (by omega) hbelow
  generalize hv : (volume p bn).blockAddr (sectorAddr p (fileSector p f k)) = v at hblock
  have hdef : fileSector p f k =
    80 + 2 * (calcFatSectors p).toNat + (p.sectorsPerCluster.toNat * (f.firstCluster.toNat - 2) + k) := add_assoc _ _ _
  have hroot : (sectorsToRoot p v).toNat = p.sectorsPerCluster.toNat * (f.firstCluster.toNat - 2) + k := by
    rw [sectorsToRoot, g.boot.hidden, g.boot.res, g.boot.num]
    simp only [UInt32.toNat_sub, UInt32.toNat_mul, UInt32.reduceToNat]
    omega
  have hcluster : (clusterIndex p v).toNat = f.firstCluster.toNat + k / p.sectorsPerCluster.toNat := by
    rw [clusterIndex, g.boot.root, UInt32.toNat_add, UInt32.toNat_div, hroot, UInt8.toNat_toUInt32,
      Nat.mul_add_div hcl]
    rw [show (2 : UInt32).toNat = 2 from rfl, ← add_assoc, Nat.add_sub_cancel' hlow]
    exact Nat.mod_eq_of_lt (by omega)
  have howner : ∃ o, readOwner p v = some o ∧ o.file = f := by
    rcases h.find (clusterIndex p v) [] (by omega) with ⟨o, ho, hmem, hohas⟩ | ⟨_, hno⟩
    · have hof : o.file = f := h.unique hmem hf hohas (hcluster ▸ hhas)
      refine ⟨o, ?_, hof⟩
      rw [readOwner, ho, filter_some, hof, hwo]
      rfl
    · exact absurd (hcluster ▸ hhas) (hno f hf)
  have hoffset : (addrOffset p f v).toNat = p.sectorSize.toNat * k := by
    have hfirst : (f.firstCluster - 2).toNat = f.firstCluster.toNat - 2 :=
      UInt32.toNat_sub_of_le _ _ (by rwa [le_iff_toNat_le])
    have hstart : (p.sectorsPerCluster.toUInt32 * (f.firstCluster - 2)).toNat =
        p.sectorsPerCluster.toNat * (f.firstCluster.toNat - 2) := by
      rw [UInt32.toNat_mul, UInt8.toNat_toUInt32, hfirst]
      exact Nat.mod_eq_of_lt (by omega)
    rw [addrOffset, g.boot.root, UInt32.toNat_mul, UInt16.toNat_toUInt32, UInt32.toNat_sub_of_le, hroot, hstart,
      Nat.add_sub_cancel_left]
    · have hle : p.sectorSize.toNat * k ≤ fileSector p f k * p.sectorSize.toNat := by
        rw [Nat.mul_comm]
        exact Nat.mul_le_mul_right _ (by omega)
      exact Nat.mod_eq_of_lt (by omega)
    · rw [UInt32.le_iff_toNat_le, hroot, hstart]
      exact Nat.le_add_right _ _
  obtain ⟨o, ho, rfl⟩ := howner
  have hsys := sysRead_behind p.sectorSize.toUInt32 buff g.boot g.sector (show 80 ≤ v.toNat by omega)
  rw [if_neg (by omega)] at hsys
  unfold malRead
  rw [pageSize_volume, hv, show (volume p bn).param = p from rfl, hsys]
  unfold dataRead
  rw [ho]
  dsimp only
  rw [hdir, if_neg Bool.false_ne_true, hbuff]
  dsimp only
  rw [memfsRead, memfsSize_eq, toNat_toUInt64, hoffset, UInt16.toNat_toUInt32]
  rfl

/-! ### The sectors of a file together -/

theorem getElem?_flatMap_range {α : Type*} {c : ℕ → List α} {n : ℕ} : ∀ (k : ℕ), (∀ i < k, (c i).length = n) → ∀ i < n * k,
    ((List.range k).flatMap c)[i]? = (c (i / n))[i % n]?
  | 0, _, i, hi => absurd hi (Nat.not_lt_zero i)
  | k + 1, hlen, i, hi => by
    have hleft : ((List.range k).flatMap c).length = n * k := by
      rw [length_flatMap, map_congr_left (g := fun _ => n) fun i h => hlen i (Nat.lt_succ_of_lt (List.mem_range.mp h)),
        map_const', sum_replicate, length_range, smul_eq_mul, mul_comm]
    rw [range_succ, flatMap_append, flatMap_singleton]
    by_cases h : i < n * k
    · rw [getElem?_append_left (hleft.symm ▸ h)]
      exact getElem?_flatMap_range k (fun i h => hlen i (Nat.lt_succ_of_lt h)) i h
    · rw [getElem?_append_right (hleft.symm ▸ not_lt.mp h), hleft]
      have hi' : i < n * k + n := hi
      have hdiv : i / n = k := Nat.div_eq_of_lt_le (by rw [mul_comm]; omega) (by rw [mul_comm]; exact hi)
      have hdm := Nat.div_add_mod i n
      rw [hdiv] at hdm ⊢
      congr 1
      omega

/-- Reads one after the other: what each one leaves in its buffer. -/
def malReads (m : Mal) : List (UInt64 × List UInt8) → List (List UInt8)
  | [] => []
  | (addr, buff) :: rest =>
    let r := malRead m addr buff
    r.2.1 :: malReads r.2.2 rest

theorem malReads_eq {m : Mal} (addr : ℕ → UInt64) (prior out : ℕ → List UInt8) : ∀ (ks : List ℕ),
    (∀ k ∈ ks, malRead m (addr k) (prior k) = (.none, out k, m)) →
    malReads m (ks.map fun k => (addr k, prior k)) = ks.map out
  | [], _ => rfl
  | k :: ks, h => by
    have hk := h k mem_cons_self
    rw [map_cons, map_cons, malReads, hk]
    rw [malReads_eq addr prior out ks fun j hj => h j (mem_cons_of_mem k hj)]

theorem bytesAt_length (d : List UInt8) (offset n : ℕ) : (bytesAt d offset n).length = n := by
  simp [bytesAt]

theorem getElem?_bytesAt (d : List UInt8) (offset : ℕ) {n i : ℕ} (h : i < n) : (bytesAt d offset n)[i]? = some (d.getD (offset + i) 0) := by
  simp [bytesAt, h]

/-- The part of a file's memory that is in its sector `k`. -/
def sectorBytes (p : Param) (f : Node) (d : List UInt8) (k : ℕ) : List UInt8 :=
  bytesAt d (p.sectorSize.toNat * k) (min p.sectorSize.toNat (f.size.toNat - p.sectorSize.toNat * k))

theorem Geometry.size_le (g : Geometry p) (f : Node) :
    f.size.toNat ≤ p.sectorSize.toNat * (sizeClusters p f * p.sectorsPerCluster.toNat) := by
  have hss := g.sector
  have hcs : 0 < (clusterSize p).toNat := by
    rw [clusterSize_toNat]
    exact mul_pos (by omega) g.cluster
  have hdm := Nat.lt_mul_div_succ (f.size.toNat + (clusterSize p).toNat - 1) hcs
  have hexp : p.sectorSize.toNat * (sizeClusters p f * p.sectorsPerCluster.toNat) = (clusterSize p).toNat * sizeClusters p f := by
    rw [clusterSize_toNat]
    ring
  rw [hexp]
  unfold sizeClusters
  rw [Nat.mul_succ] at hdm
  omega

theorem sectors_take (hs : 0 < p.sectorSize.toNat) {d : List UInt8} {prior : ℕ → List UInt8}
    (hprior : ∀ k, (prior k).length = p.sectorSize.toNat) (hd : f.size.toNat ≤ d.length) (hn : f.size.toNat ≤ p.sectorSize.toNat * n) :
    ((List.range n).flatMap fun k => LE.put (prior k) 0 (sectorBytes p f d k)).take f.size.toNat = d.take f.size.toNat := by
  have hput : ∀ k, 0 + (sectorBytes p f d k).length ≤ (prior k).length := by
    intro k
    rw [sectorBytes, bytesAt_length, hprior]
    omega
  have hlen : ∀ k < n, (LE.put (prior k) 0 (sectorBytes p f d k)).length = p.sectorSize.toNat := fun k _ => by
    rw [LE.length_put (hput k), hprior]
  apply ext_getElem?
  intro i
  by_cases hi : i < f.size.toNat
  · have hmod := Nat.mod_lt i hs
    have hdm := Nat.div_add_mod i p.sectorSize.toNat
    have hbytes : (sectorBytes p f d (i / p.sectorSize.toNat))[i % p.sectorSize.toNat]? = some (d.getD i 0) := by
      rw [sectorBytes, getElem?_bytesAt _ _ (by omega), hdm]
    rw [getElem?_take_of_lt hi, getElem?_take_of_lt hi, getElem?_flatMap_range n hlen i (hi.trans_le hn),
      LE.getElem?_put (hput _), if_pos ⟨Nat.zero_le _, by rw [sectorBytes, bytesAt_length]; omega⟩, Nat.sub_zero, hbytes,
      getD_eq_getElem _ _ (by omega), getElem?_eq_getElem]
  · rw [getElem?_eq_none, getElem?_eq_none]
    · rw [length_take]
      omega
    · rw [length_take]
      omega

/-- **The sectors of a file are its contents**, whatever the buffers held. -/
theorem malReads_file (g : Geometry p) (h : Laid p 2 p.tree b) (hfit : b ≤ 2 + dataClusters p) (hf : f ∈ p.tree.nodes)
    (hclusters : (fileClusters p f).toNat = sizeClusters p f) {d : List UInt8} (hbuff : f.buff = some d) (hdir : f.isDir = false)
    (hwo : f.attr &&& attrWriteonly = 0) (hd : f.size.toNat ≤ d.length) (prior : ℕ → List UInt8)
    (hprior : ∀ k, (prior k).length = p.sectorSize.toNat) :
    ((malReads (volume p bn) ((List.range (sizeClusters p f * p.sectorsPerCluster.toNat)).map fun k =>
      (sectorAddr p (fileSector p f k), prior k))).flatten).take f.size.toNat = d.take f.size.toNat := by
  have hss := g.sector
  have hread : ∀ k ∈ List.range (sizeClusters p f * p.sectorsPerCluster.toNat),
      malRead (volume p bn) (sectorAddr p (fileSector p f k)) (prior k) =
        (.none, LE.put (prior k) 0 (sectorBytes p f d k), volume p bn) := by
    intro k hk
    apply malRead_file g h hfit hf hbuff hdir hwo
    rw [hclusters]
    exact List.mem_range.mp hk
  rw [malReads_eq _ prior _ _ hread, ← flatMap_def]
  exact sectors_take (by omega) hprior hd (g.size_le f)

/-! ### The volume after `fakefat32_init` -/

/-- The volume reads as a stored one with `used` clusters in use. -/
structure ReadsBack (m : Mal) (used : ℕ) : Prop where
  /-- A file has the clusters that its size takes. -/
  clusters : ∀ f ∈ m.param.tree.nodes, (fileClusters m.param f).toNat = sizeClusters m.param f
  /-- The clusters in use are those from 2 on. -/
  ranges : ∀ c, (∃ f ∈ m.param.tree.nodes, Has m.param f c) ↔ 2 ≤ c ∧ c < 2 + used
  /-- No two files have a cluster in common. -/
  disjoint : m.param.tree.nodes.Pairwise fun f g => ∀ c, Has m.param f c → ¬ Has m.param g c
  /-- The copies of the FAT are the same. -/
  copies : ∀ s < (calcFatSectors m.param).toNat, ∀ buff buff' : List UInt8, buff.length = m.param.sectorSize.toNat →
    buff'.length = m.param.sectorSize.toNat →
    (malRead m (sectorAddr m.param (80 + s)) buff).2.1 =
      (malRead m (sectorAddr m.param (80 + (calcFatSectors m.param).toNat + s)) buff').2.1
  /-- The chain of a file is its clusters, as many as its size takes. -/
  chain : ∀ f ∈ m.param.tree.nodes, f.size ≠ 0 → ∀ j < 2, ∀ buff : List UInt8, buff.length = m.param.sectorSize.toNat →
    ∀ fuel ≥ sizeClusters m.param f, follow (fatRead m buff j) fuel f.firstCluster.toNat =
      some (List.range' f.firstCluster.toNat (sizeClusters m.param f))
  /-- The sectors of a memory-backed file are its contents. -/
  contents : ∀ f ∈ m.param.tree.nodes, ∀ d, f.buff = some d → f.size.toNat ≤ d.length → f.isDir = false →
    f.attr &&& attrWriteonly = 0 → ∀ prior : ℕ → List UInt8, (∀ k, (prior k).length = m.param.sectorSize.toNat) →
    ((malReads m ((List.range (sizeClusters m.param f * m.param.sectorsPerCluster.toNat)).map fun k =>
      (sectorAddr m.param (fileSector m.param f k), prior k))).flatten).take f.size.toNat = d.take f.size.toNat
  /-- A cluster that no file has is free. -/
  free : ∀ c, 2 ≤ c → c < (calcFatSectors m.param).toNat * (m.param.sectorSize.toNat / 4) →
    (∀ f ∈ m.param.tree.nodes, ¬ Has m.param f c) → ∀ j < 2, ∀ buff : List UInt8, buff.length = m.param.sectorSize.toNat →
    fatRead m buff j c = 0

theorem Geometry.clusterSize_pos (g : Geometry p) : 0 < (clusterSize p).toNat := by
  have := g.sector
  rw [clusterSize_toNat]
  exact mul_pos (by omega) g.cluster

/-- The FAT has room for 32-bit cluster numbers only. -/
theorem Geometry.words_lt (g : Geometry p) : (calcFatSectors p).toNat * (p.sectorSize.toNat / 4) < 2 ^ 32 := by
  have hroom := g.room
  have hbelow := g.below
  have hss := g.sector
  have h1 : (calcFatSectors p).toNat * p.sectorSize.toNat ≤ p.sectorNumber.toNat * p.sectorSize.toNat :=
    Nat.mul_le_mul_right _ (by omega)
  have h2 : p.sectorNumber.toNat * p.sectorSize.toNat < (p.sectorNumber.toNat + 64) * p.sectorSize.toNat :=
    mul_lt_mul_of_pos_right (by omega) (by omega)
  have h3 : (calcFatSectors p).toNat * (p.sectorSize.toNat / 4) ≤ (calcFatSectors p).toNat * p.sectorSize.toNat :=
    Nat.mul_le_mul_left _ (Nat.div_le_self _ _)
  omega

theorem follow_file (g : Geometry p) (h : Laid p 2 p.tree b) (hfit : b ≤ 2 + dataClusters p) (hf : f ∈ p.tree.nodes)
    (hclusters : (fileClusters p f).toNat = sizeClusters p f) (hsize : f.size ≠ 0) {j : ℕ} (hj : j < 2)
    (hbuff : buff.length = p.sectorSize.toNat) {fuel : ℕ} (hfuel : sizeClusters p f ≤ fuel) :
    follow (fatRead (volume p bn) buff j) fuel f.firstCluster.toNat =
      some (List.range' f.firstCluster.toNat (sizeClusters p f)) := by
  have hb := g.data_lt hfit
  have hcov := g.covers
  have hcs := g.clusterSize_pos
  have hpos : 0 < sizeClusters p f := by
    have h0 : f.size.toNat ≠ 0 := fun h => hsize (UInt64.toNat_inj.mp h)
    exact Nat.div_pos (by omega) hcs
  obtain ⟨n, hn⟩ := Nat.exists_eq_succ_of_ne_zero hpos.ne'
  have hin : ∀ i ≤ n, Has p f (f.firstCluster.toNat + i) := fun i hi => ⟨Nat.le_add_right _ _, by omega⟩
  have hword : ∀ i ≤ n, fatRead (volume p bn) buff j (f.firstCluster.toNat + i) =
      if f.firstCluster.toNat + i + 1 = f.firstCluster.toNat + (fileClusters p f).toNat then fatFileend
      else UInt32.ofNat (f.firstCluster.toNat + i + 1) := by
    intro i hi
    have hrange := h.mem_range f hf _ (hin i hi)
    rw [fatRead_eq g h hb hbuff hj (by omega), fatWord_of_has g.boot.root h hb hf (hin i hi)]
  have hlast := h.mem_range f hf _ (hin n (le_refl n))
  have hsn := g.sectors_lt
  have hdata : dataClusters p ≤ p.sectorNumber.toNat - 16 - 2 * (calcFatSectors p).toNat := Nat.div_le_self _ _
  rw [hn]
  apply follow_range n f.firstCluster.toNat fuel (by omega)
  · have : fatStart.toNat = 0x0FFFFFF8 := rfl
    omega
  · intro i hi
    rw [hword i hi.le, if_neg (by omega)]
  · rw [hword n (le_refl n), if_pos (by omega)]

/-- The volume reads back, if its files are where `fakefat32_init` puts them. -/
theorem readsBack_of_laid (g : Geometry p) {used : ℕ} (h : Laid p 2 p.tree (2 + used)) (hfit : used ≤ dataClusters p)
    (hclusters : ∀ f ∈ p.tree.nodes, (fileClusters p f).toNat = sizeClusters p f) : ReadsBack (volume p bn) used := by
  have hb : 2 + used < 2 ^ 32 := g.data_lt (by omega)
  have hwords := g.words_lt
  constructor
  · exact hclusters
  · intro c
    exact ⟨fun ⟨f, hf, hhas⟩ => h.mem_range f hf c hhas, fun hc => h.covered c hc.1 hc.2⟩
  · exact h.pairwise.imp fun hlt c hfc hgc => lt_irrefl c (hlt c c hfc hgc)
  · intro s hs buff buff' hlen hlen'
    have h0 := malRead_fat bn g h hb hlen (j := 0) (by decide) hs
    have h1 := malRead_fat bn g h hb hlen' (j := 1) (by decide) hs
    rw [Nat.zero_mul, Nat.add_zero] at h0
    rw [Nat.one_mul] at h1
    exact (congrArg (fun r => r.2.1) h0).trans (congrArg (fun r => r.2.1) h1).symm
  · intro f hf hsize j hj buff hlen fuel hfuel
    exact follow_file g h (by omega) hf (hclusters f hf) hsize hj hlen hfuel
  · intro f hf d hbuff hd hdir hwo prior hprior
    exact malReads_file g h (by omega) hf (hclusters f hf) hbuff hdir hwo hd prior hprior
  · intro c hlo hhi hno j hj buff hlen
    exact (fatRead_eq g h hb hlen hj hhi).trans (fatWord_free g.boot.root h hb hlo (hhi.trans hwords) hno)

/-- 40 sectors of 512 bytes, a label and the file `A.TXT` of 600 bytes. -/
def smallVolume : Param where
  sectorSize := 512
  sectorNumber := 40
  sectorsPerCluster := 1
  volumeId := 1
  diskId := 2
  root := ⟨[82], 0, 0, none, .user none none, 0, default⟩
  child := .cons ⟨[86, 79, 76], 0, attrVolumid, none, .user none none, 0, default⟩ .nil
    (.cons ⟨[65, 46, 84, 88, 84], 600, attrReadonly, some (List.replicate 600 65), .user none none, 0, default⟩ .nil .nil)
  ready := false
  mbr := fakefat32Mbr

theorem smallVolume_geometry : Geometry smallVolume :=
  ⟨Boot.of_table rfl, by decide, by decide, by decide, by decide +kernel, by decide⟩

end FakeFat
end Vsf
