/-
# Byte order and masks of 32-bit words

The four bytes of a word the other way round (`swapU32`), and what is left of a word under a mask of
its high bits.
-/
import Mathlib

namespace ByteOrder

/-- The word with its bytes the other way round. -/
def swapU32 (v : UInt32) : UInt32 :=
  ((v &&& 0xff000000) >>> 24) ||| ((v &&& 0x00ff0000) >>> 8) ||| ((v &&& 0x0000ff00) <<< 8) ||| ((v &&& 0x000000ff) <<< 24)

theorem getLsbD_swapU32 (v : UInt32) (i : ℕ) (h : i < 32) :
    (swapU32 v).toBitVec.getLsbD i = v.toBitVec.getLsbD (8 * (3 - i / 8) + i % 8) := by
  unfold swapU32
  interval_cases i <;> simp

theorem ext_bits {v w : UInt32} (h : ∀ i, i < 32 → v.toBitVec.getLsbD i = w.toBitVec.getLsbD i) : v = w :=
  UInt32.toBitVec_inj.mp (BitVec.eq_of_getLsbD_eq h)

theorem swapU32_swapU32 (v : UInt32) : swapU32 (swapU32 v) = v := by
  refine ext_bits fun i hi => ?_
  rw [getLsbD_swapU32 _ _ hi, getLsbD_swapU32 _ _ (by omega)]
  congr 1
  omega

theorem swapU32_and (v w : UInt32) : swapU32 (v &&& w) = swapU32 v &&& swapU32 w := by
  refine ext_bits fun i hi => ?_
  rw [getLsbD_swapU32 _ _ hi, UInt32.toBitVec_and, UInt32.toBitVec_and, BitVec.getLsbD_and, BitVec.getLsbD_and,
    getLsbD_swapU32 _ _ hi, getLsbD_swapU32 _ _ hi]

theorem swapU32_not (v : UInt32) : swapU32 (~~~v) = ~~~swapU32 v := by
  refine ext_bits fun i hi => ?_
  rw [getLsbD_swapU32 _ _ hi, UInt32.toBitVec_not, UInt32.toBitVec_not, BitVec.getLsbD_not, BitVec.getLsbD_not,
    getLsbD_swapU32 _ _ hi]
  simp only [hi, show 8 * (3 - i / 8) + i % 8 < 32 by omega]

theorem swapU32_eq_zero {v : UInt32} : swapU32 v = 0 ↔ v = 0 := by
  constructor
  · intro h
    rw [← swapU32_swapU32 v, h]
    rfl
  · rintro rfl
    rfl

/-! ### Masks -/

theorem split_mask (v m : UInt32) : (v &&& ~~~m) ||| (m &&& v) = v := by
  refine ext_bits fun i hi => ?_
  simp only [UInt32.toBitVec_or, UInt32.toBitVec_and, UInt32.toBitVec_not, BitVec.getLsbD_or, BitVec.getLsbD_and,
    BitVec.getLsbD_not, hi, decide_true, Bool.true_and]
  cases v.toBitVec.getLsbD i <;> cases m.toBitVec.getLsbD i <;> rfl

theorem or_and_mask {v m w : UInt32} (h : v &&& m = 0) : (v ||| (m &&& w)) &&& m = w &&& m := by
  refine ext_bits fun i hi => ?_
  have hi := congrArg (fun x : UInt32 => x.toBitVec.getLsbD i) h
  simp only [UInt32.toBitVec_or, UInt32.toBitVec_and, UInt32.toBitVec_zero, BitVec.getLsbD_or, BitVec.getLsbD_and,
    BitVec.getLsbD_zero] at hi ⊢
  cases hv : v.toBitVec.getLsbD i <;> cases hm : m.toBitVec.getLsbD i <;> cases w.toBitVec.getLsbD i <;>
    simp [hv, hm] at hi ⊢

theorem or_and_not_mask {v m w : UInt32} (h : v &&& m = 0) : (v ||| (m &&& w)) &&& ~~~m = v := by
  refine ext_bits fun i hi => ?_
  have hz := congrArg (fun x : UInt32 => x.toBitVec.getLsbD i) h
  simp only [UInt32.toBitVec_or, UInt32.toBitVec_and, UInt32.toBitVec_not, UInt32.toBitVec_zero, BitVec.getLsbD_or,
    BitVec.getLsbD_and, BitVec.getLsbD_not, BitVec.getLsbD_zero, hi, decide_true, Bool.true_and] at hz ⊢
  cases hv : v.toBitVec.getLsbD i <;> cases hm : m.toBitVec.getLsbD i <;> cases w.toBitVec.getLsbD i <;>
    simp [hv, hm] at hz ⊢

theorem and_low (v : UInt32) {h : ℕ} (hh : h < 32) : (v &&& UInt32.ofNat (2 ^ h - 1)).toNat = v.toNat % 2 ^ h := by
  have hpow : 2 ^ h < 2 ^ 32 := Nat.pow_lt_pow_right (by omega) hh
  rw [UInt32.toNat_and, UInt32.toNat_ofNat_of_lt' (by rw [UInt32.size]; omega), Nat.and_two_pow_sub_one_eq_mod]

theorem and_high_eq_zero (v : UInt32) {h : ℕ} (hh : h < 32) :
    v &&& ~~~UInt32.ofNat (2 ^ h - 1) = 0 ↔ v.toNat < 2 ^ h := by
  have hlow : v &&& ~~~UInt32.ofNat (2 ^ h - 1) = 0 ↔ v &&& UInt32.ofNat (2 ^ h - 1) = v := by
    have hs := split_mask v (UInt32.ofNat (2 ^ h - 1))
    constructor
    · intro h0
      rw [h0, UInt32.zero_or, UInt32.and_comm] at hs
      exact hs
    · intro he
      rw [← he, UInt32.and_assoc, UInt32.and_not_self, UInt32.and_zero]
  rw [hlow, ← UInt32.toNat_inj, and_low v hh]
  exact ⟨fun he => he ▸ Nat.mod_lt _ (Nat.two_pow_pos h), Nat.mod_eq_of_lt⟩

end ByteOrder
