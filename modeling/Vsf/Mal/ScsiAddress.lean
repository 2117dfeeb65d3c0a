/-
# What a READ or a WRITE addresses

The four forms of READ and WRITE come to one multiplication. The capacity is not looked at; the byte
count has 32 bits; of the 6-byte form only 16 bits of the address are read, and a count of 0 stays
0. A command is executed as the standard says exactly if none of this matters (`cdbs_addressed`).
-/
import Mathlib
import Vsf.Mal.Scsi

namespace Vsf
namespace Scsi

/-- The lengths of a READ or a WRITE. -/
inductive Form
  | six
  | ten
  | twelve
  | sixteen
deriving DecidableEq

namespace Form

/-- The operation code. -/
def opcode : Form → Bool → UInt8
  | six, write => if write then 0x0A else 0x08
  | ten, write => if write then 0x2A else 0x28
  | twelve, write => if write then 0xAA else 0xA8
  | sixteen, write => if write then 0x8A else 0x88

/-- The first block, by the standard. -/
def lba (cdb : Cdb) : Form → ℕ
  | six => (cdb 1).toNat % 32 * 65536 + getBe cdb 2 2
  | ten => getBe cdb 2 4
  | twelve => getBe cdb 2 4
  | sixteen => getBe cdb 2 8

/-- The number of blocks, by the standard. -/
def count (cdb : Cdb) : Form → ℕ
  | six => if (cdb 4).toNat = 0 then 256 else (cdb 4).toNat
  | ten => getBe cdb 7 2
  | twelve => getBe cdb 6 4
  | sixteen => getBe cdb 10 4

/-- The first block, as the source reads it. -/
def readLba (cdb : Cdb) : Form → ℕ
  | six => getBe cdb 2 2
  | f => f.lba cdb

/-- The number of blocks, as the source reads it. -/
def readCount (cdb : Cdb) : Form → ℕ
  | six => (cdb 4).toNat
  | f => f.count cdb

end Form

variable {d : Device} {i : ℕ} {cdb : Cdb} {f : Form} {write : Bool}

/-- What is promised of a READ or a WRITE: accepted within the capacity only, with its blocks; or no
transfer. -/
structure Addressed (d : Device) (i : ℕ) (cdb : Cdb) (f : Form) (write : Bool) : Prop where
  range : (execute d i cdb noVendor).err = .none → f.lba cdb + f.count cdb ≤ (d.lun i).blockNum.toNat
  start : (execute d i cdb noVendor).err = .none → ∃ t, (execute d i cdb noVendor).start = some t ∧ t.write = write ∧
    t.addr.toNat = f.lba cdb * (d.lun i).blockSize.toNat ∧ t.size.toNat = f.count cdb * (d.lun i).blockSize.toNat
  rejected : (execute d i cdb noVendor).err ≠ .none → (execute d i cdb noVendor).start = none

/-- The command is turned away: a transaction, no ready memory, or no buffer. -/
def Rejected (d : Device) (i : ℕ) : Prop :=
  d.transact.lun ≠ none ∨ (d.lun i).malReady = false ∨ (d.lun i).buffer = none

/-- Within the capacity, with bytes that can be counted; for 6 bytes no high address bits and no count of 0. -/
structure InRange (d : Device) (i : ℕ) (cdb : Cdb) (f : Form) : Prop where
  capacity : f.lba cdb + f.count cdb ≤ (d.lun i).blockNum.toNat
  addr : f.lba cdb * (d.lun i).blockSize.toNat < 2 ^ 64
  size : f.count cdb * (d.lun i).blockSize.toNat < 2 ^ 32
  six : f = .six → (d.lun i).blockSize = 0 ∨ ((cdb 1).toNat % 32 = 0 ∧ cdb 4 ≠ 0)

theorem getBe_succ (cdb : Cdb) (k n : ℕ) : getBe cdb k (n + 1) = getBe cdb k n * 256 + (cdb (k + n)).toNat := by
  unfold getBe
  rw [List.range_succ, List.foldl_append]
  rfl

theorem getBe_lt (cdb : Cdb) (k : ℕ) : ∀ n, getBe cdb k n < 256 ^ n
  | 0 => one_pos
  | n + 1 => by
    have h := getBe_lt cdb k n
    have hbyte := (cdb (k + n)).toNat_lt
    rw [getBe_succ, pow_succ]
    omega

theorem readLba_lt (cdb : Cdb) (f : Form) : f.readLba cdb < 2 ^ 64 := by
  cases f with
  | six => exact (getBe_lt cdb 2 2).trans (by norm_num)
  | ten => exact (getBe_lt cdb 2 4).trans (by norm_num)
  | twelve => exact (getBe_lt cdb 2 4).trans (by norm_num)
  | sixteen => exact (getBe_lt cdb 2 8).trans_eq (by norm_num)

theorem readCount_lt (cdb : Cdb) (f : Form) : f.readCount cdb < 2 ^ 32 := by
  cases f with
  | six => exact (cdb 4).toNat_lt.trans (by norm_num)
  | ten => exact (getBe_lt cdb 7 2).trans (by norm_num)
  | twelve => exact (getBe_lt cdb 6 4).trans_eq (by norm_num)
  | sixteen => exact (getBe_lt cdb 10 4).trans_eq (by norm_num)

/-- **All forms come to one place.** -/
theorem command_form (h : cdb 0 = f.opcode write) :
    command d i cdb = doMal d i write (UInt64.ofNat (f.readLba cdb)) (UInt32.ofNat (f.readCount cdb)) := by
  unfold command groupcode6 groupcode10_1 groupcode10_2 groupcode12 groupcode16
  rw [h]
  cases f with
  | six =>
    have hcount : UInt32.ofNat (Form.six.readCount cdb) = (cdb 4).toUInt32 := by
      apply UInt32.toNat_inj.mp
      have := (cdb 4).toNat_lt
      rw [UInt8.toNat_toUInt32, UInt32.toNat_ofNat', Form.readCount]
      omega
    rw [hcount]
    cases write <;> rfl
  | ten => cases write <;> rfl
  | twelve => cases write <;> rfl
  | sixteen => cases write <;> rfl

/-- A product that wraps is not the product, and one that does not is. -/
theorem mul_mod_eq {a b n : ℕ} (m : ℕ) (hle : a ≤ m) (h : a * b % n = m * b) : b = 0 ∨ a = m := by
  rcases eq_zero_or_pos b with hb | hb
  · exact .inl hb
  · have h1 := Nat.mod_le (a * b) n
    rw [h] at h1
    exact .inr (le_antisymm hle (le_of_mul_le_mul_right h1 hb))

theorem readLba_le (cdb : Cdb) (f : Form) : f.readLba cdb ≤ f.lba cdb := by
  cases f with
  | six => exact Nat.le_add_left _ _
  | _ => exact le_refl _

theorem readCount_le (cdb : Cdb) (f : Form) : f.readCount cdb ≤ f.count cdb := by
  cases f with
  | six =>
    show (cdb 4).toNat ≤ if (cdb 4).toNat = 0 then 256 else (cdb 4).toNat
    split_ifs with h <;> omega
  | _ => exact le_refl _

theorem rejected_start (hcdb : cdb 0 = f.opcode write) (h : Rejected d i) :
    (execute d i cdb noVendor).err = .fail ∧ (execute d i cdb noVendor).start = none := by
  by_cases hlun : d.transact.lun = none
  · rw [execute_free hlun]
    by_cases hready : (d.lun i).malReady = true
    · have hbuffer : (d.lun i).buffer = none := by simpa [Rejected, hlun, hready] using h
      have hleave : leave d i cdb = doMal d i write (UInt64.ofNat (f.readLba cdb)) (UInt32.ofNat (f.readCount cdb)) := by
        rw [leave, if_neg (by simp [hready]), command_form hcdb]
      rcases doMal_cases d i write (UInt64.ofNat (f.readLba cdb)) (UInt32.ofNat (f.readCount cdb)) with
        ⟨-, hexit, -⟩ | ⟨hsome, -⟩
      · rw [← hleave] at hexit
        exact ⟨congrArg Exit.err hexit, congrArg Exit.start hexit⟩
      · exact absurd hbuffer hsome
    · have hleave : leave d i cdb = (.notReady, d) := by
        rw [leave, if_pos (by simpa using hready)]
      rw [hleave]
      exact ⟨rfl, rfl⟩
  · rw [execute_busy hlun]
    exact ⟨rfl, rfl⟩

theorem accepted_start (hcdb : cdb 0 = f.opcode write) (h : ¬ Rejected d i) :
    (execute d i cdb noVendor).err = .none ∧ ∃ t, (execute d i cdb noVendor).start = some t ∧ t.write = write ∧
      t.addr.toNat = f.readLba cdb * (d.lun i).blockSize.toNat % 2 ^ 64 ∧
      t.size.toNat = f.readCount cdb * (d.lun i).blockSize.toNat % 2 ^ 32 := by
  unfold Rejected at h
  push Not at h
  obtain ⟨hlun, hready, hbuffer⟩ := h
  have hleave : leave d i cdb = doMal d i write (UInt64.ofNat (f.readLba cdb)) (UInt32.ofNat (f.readCount cdb)) := by
    rw [leave, if_neg (by simpa using hready), command_form hcdb]
  rw [execute_free hlun]
  rcases doMal_cases d i write (UInt64.ofNat (f.readLba cdb)) (UInt32.ofNat (f.readCount cdb)) with
    ⟨hnone, -⟩ | ⟨-, hexit, -⟩
  · exact absurd hnone hbuffer
  · rw [← hleave] at hexit
    refine ⟨congrArg Exit.err hexit, _, congrArg Exit.start hexit, rfl, ?_, ?_⟩
    · show (UInt64.ofNat (f.readLba cdb) * (d.lun i).blockSize).toNat = _
      rw [UInt64.toNat_mul, UInt64.toNat_ofNat', Nat.mod_eq_of_lt (readLba_lt cdb f)]
    · show ((UInt32.ofNat (f.readCount cdb)).toUInt64 * (d.lun i).blockSize).toUInt32.toNat = _
      rw [UInt64.toNat_toUInt32, UInt64.toNat_mul, UInt32.toNat_toUInt64, UInt32.toNat_ofNat',
        Nat.mod_eq_of_lt (readCount_lt cdb f)]
      exact Nat.mod_mod_of_dvd _ (by norm_num)

/-- What the source reads is what the standard says, or the block size is 0. -/
theorem InRange.fields (h : InRange d i cdb f) : (d.lun i).blockSize.toNat = 0 ∨
    (f.readLba cdb = f.lba cdb ∧ f.readCount cdb = f.count cdb) := by
  cases f with
  | six =>
    rcases h.six rfl with hb | ⟨hhigh, hcount⟩
    · left
      rw [hb]
      rfl
    · right
      have hne : ¬ (cdb 4).toNat = 0 := by rwa [← UInt8.toNat_zero, UInt8.toNat_inj]
      exact ⟨by rw [Form.lba, hhigh, Nat.zero_mul, zero_add, Form.readLba], by rw [Form.count, if_neg hne, Form.readCount]⟩
  | ten => exact .inr ⟨rfl, rfl⟩
  | twelve => exact .inr ⟨rfl, rfl⟩
  | sixteen => exact .inr ⟨rfl, rfl⟩

/-- **A READ or a WRITE is as the standard says exactly if** it is turned away, or is within what the code
counts. -/
theorem cdbs_addressed (hcdb : cdb 0 = f.opcode write) : Addressed d i cdb f write ↔ Rejected d i ∨ InRange d i cdb f := by
  by_cases hrej : Rejected d i
  · obtain ⟨herr, hstart⟩ := rejected_start hcdb hrej
    have hfail : (.fail : Err) ≠ .none := by decide
    refine iff_of_true ⟨?_, ?_, fun _ => hstart⟩ (.inl hrej)
    · exact fun hok => absurd (herr.symm.trans hok) hfail
    · exact fun hok => absurd (herr.symm.trans hok) hfail
  obtain ⟨herr, t, hstart, hwrite, haddr, hsize⟩ := accepted_start hcdb hrej
  constructor
  · intro h
    obtain ⟨t', hstart', -, haddr', hsize'⟩ := h.start herr
    obtain rfl : t = t' := Option.some.inj (hstart.symm.trans hstart')
    have hlba := haddr.symm.trans haddr'
    have hcount := hsize.symm.trans hsize'
    refine .inr ⟨h.range herr, ?_, ?_, ?_⟩
    · rw [← hlba]
      exact Nat.mod_lt _ (by norm_num)
    · rw [← hcount]
      exact Nat.mod_lt _ (by norm_num)
    · rintro rfl
      rcases mul_mod_eq _ (readLba_le cdb .six) hlba with hb | hl
      · exact .inl (UInt64.toNat_inj.mp hb)
      · rcases mul_mod_eq _ (readCount_le cdb .six) hcount with hb | hc
        · exact .inl (UInt64.toNat_inj.mp hb)
        · right
          have hhigh : getBe cdb 2 2 = (cdb 1).toNat % 32 * 65536 + getBe cdb 2 2 := hl
          have hzero : (cdb 4).toNat = if (cdb 4).toNat = 0 then 256 else (cdb 4).toNat := hc
          refine ⟨by omega, ?_⟩
          intro h0
          rw [h0] at hzero
          exact absurd hzero (by decide)
  · rintro (h | h)
    · exact absurd h hrej
    refine ⟨fun _ => h.capacity, fun _ => ⟨t, hstart, hwrite, ?_, ?_⟩, fun hno => absurd herr hno⟩
    · rw [haddr]
      rcases h.fields with hb | ⟨hl, -⟩
      · rw [hb, Nat.mul_zero, Nat.mul_zero]
        rfl
      · rw [hl]
        exact Nat.mod_eq_of_lt h.addr
    · rw [hsize]
      rcases h.fields with hb | ⟨-, hc⟩
      · rw [hb, Nat.mul_zero, Nat.mul_zero]
        rfl
      · rw [hc]
        exact Nat.mod_eq_of_lt h.size

/-- A READ (10) of the last two blocks. -/
theorem cdbs_addressed_last : Addressed sampleDevice 0 (bytes [0x28, 0, 0, 0, 0, 6, 0, 0, 2]) .ten false :=
  (@cdbs_addressed sampleDevice 0 _ .ten false rfl).mpr (.inr ⟨by decide +kernel, by decide +kernel, by decide +kernel, by decide⟩)

/-- READ (10) behind the end is accepted, READ (6) of 256 blocks starts none. -/
theorem addressed_breaks :
    ¬ Addressed sampleDevice 0 (bytes [0x28, 0, 0, 0, 0, 8, 0, 0, 1]) .ten false ∧
      ¬ Addressed { sampleDevice with lun := fun _ => { sampleLun with blockNum := 1024 } } 0 (bytes [0x08, 0, 0, 0, 0]) .six
        false := by
  constructor
  · intro h
    exact absurd (h.range (by decide +kernel)) (by decide +kernel)
  · intro h
    obtain ⟨t, ht, -, -, hsize⟩ := h.start (by decide +kernel)
    have hstart : (execute { sampleDevice with lun := fun _ => { sampleLun with blockNum := 1024 } } 0
        (bytes [0x08, 0, 0, 0, 0]) noVendor).start = some ⟨false, 0, 0⟩ := by decide +kernel
    obtain rfl := Option.some.inj (hstart.symm.trans ht)
    exact absurd hsize (by decide +kernel)

end Scsi
end Vsf
