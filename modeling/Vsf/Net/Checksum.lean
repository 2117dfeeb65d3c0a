/-
# The checksum of the Internet protocols

`vsfip_checksum` adds the big-endian words of up to 65535 bytes in 32 bits and folds the carries in
at the end, which is the one's-complement sum (`checksum_sum`).
-/
import Mathlib
import Vsf.Lib.OnesComplement
import Vsf.Net.Receive

namespace Vsf
namespace Receive

open ByteMem List

/-- The big-endian words of some bytes; an odd tail is padded with zero. -/
def words : List UInt8 → List ℕ
  | [] => []
  | [b] => [b.toNat * 256]
  | b :: b' :: bs => (b.toNat * 256 + b'.toNat) :: words bs

variable {m : Mem} {a : ℕ} {bs : List UInt8}

theorem words_lt : ∀ (bs : List UInt8), ∀ w ∈ words bs, w < 65536
  | [], w, h => absurd h not_mem_nil
  | [b], w, h => by
    have hb := b.toNat_lt
    rw [words, mem_singleton] at h
    omega
  | b :: b' :: bs, w, h => by
    have hb := b.toNat_lt
    have hb' := b'.toNat_lt
    rcases mem_cons.mp h with rfl | h
    · omega
    · exact words_lt bs w h

theorem words_append : ∀ (xs ys : List UInt8), 2 ∣ xs.length → words (xs ++ ys) = words xs ++ words ys
  | [], _, _ => rfl
  | [_], _, h => by
    rw [length_singleton] at h
    omega
  | b :: b' :: xs, ys, h => by
    rw [length_cons, length_cons] at h
    simp only [cons_append, words, words_append xs ys (by omega)]

theorem words_sum_le : ∀ (bs : List UInt8), (words bs).sum ≤ 65535 * ((bs.length + 1) / 2)
  | [] => by simp [words]
  | [b] => by
    have hb := b.toNat_lt
    simp only [words, sum_singleton, length_singleton]
    omega
  | b :: b' :: bs => by
    have hb := b.toNat_lt
    have hb' := b'.toNat_lt
    have ih := words_sum_le bs
    simp only [words, sum_cons, length_cons]
    omega

theorem be16_toNat (m : Mem) (a : ℕ) : (be16 m a).toNat = (m a).toNat * 256 + (m (a + 1)).toNat := by
  have hb := (m a).toNat_lt
  have hb' := (m (a + 1)).toNat_lt
  have hshift : ((m a).toUInt16 <<< 8).toNat = 2 ^ 8 * (m a).toNat := by
    rw [UInt16.toNat_shiftLeft, UInt8.toNat_toUInt16, show (8 : UInt16).toNat % 16 = 8 from rfl, Nat.shiftLeft_eq,
      Nat.mod_eq_of_lt (by omega), mul_comm]
  rw [be16, UInt16.toNat_or, hshift, UInt8.toNat_toUInt16, ← Nat.two_pow_add_eq_or_of_lt (by omega)]
  omega

theorem le16_toNat (m : Mem) (a : ℕ) : (le16 m a).toNat = (m a).toNat + 256 * (m (a + 1)).toNat := by
  have hb := (m a).toNat_lt
  have hb' := (m (a + 1)).toNat_lt
  have hshift : ((m (a + 1)).toUInt16 <<< 8).toNat = 2 ^ 8 * (m (a + 1)).toNat := by
    rw [UInt16.toNat_shiftLeft, UInt8.toNat_toUInt16, show (8 : UInt16).toNat % 16 = 8 from rfl, Nat.shiftLeft_eq,
      Nat.mod_eq_of_lt (by omega), mul_comm]
  rw [le16, UInt16.toNat_or, hshift, UInt8.toNat_toUInt16, ← Nat.two_pow_add_eq_or_of_lt (by omega)]
  omega

theorem checksumLoop_sum (m : Mem) : ∀ (bs : List UInt8) (a : ℕ) (c : UInt32), Holds m a bs → c.toNat + (words bs).sum < 2 ^ 32 →
    (checksumLoop m a bs.length c).toNat = c.toNat + (words bs).sum
  | [], _, _, _, _ => rfl
  | [b], a, c, h, hlt => by
    have hb := b.toNat_lt
    have hm : m a = b := h 0 (by simp)
    have hshift : (b.toUInt32 <<< 8).toNat = b.toNat * 256 := by
      rw [UInt32.toNat_shiftLeft, UInt8.toNat_toUInt32, show (8 : UInt32).toNat % 32 = 8 from rfl, Nat.shiftLeft_eq,
        Nat.mod_eq_of_lt (by omega)]
    simp only [words, sum_singleton] at hlt ⊢
    rw [length_singleton, checksumLoop, hm, UInt32.toNat_add, hshift, Nat.mod_eq_of_lt hlt]
  | b :: b' :: bs, a, c, h, hlt => by
    have hm : m a = b := h 0 (by simp)
    have hm' : m (a + 1) = b' := h 1 (by simp)
    have hrest : Holds m (a + 2) bs := (holds_cons.mp (holds_cons.mp h).2).2
    simp only [words, sum_cons] at hlt ⊢
    have hword : c.toNat + (b.toNat * 256 + b'.toNat) < 2 ^ 32 :=
      (Nat.add_le_add_left (Nat.le_add_right _ _) _).trans_lt hlt
    have hadd : (c + (be16 m a).toUInt32).toNat = c.toNat + (b.toNat * 256 + b'.toNat) := by
      rw [UInt32.toNat_add, UInt16.toNat_toUInt32, be16_toNat, hm, hm', Nat.mod_eq_of_lt hword]
    have ih := checksumLoop_sum m bs (a + 2) (c + (be16 m a).toUInt32) hrest (by omega)
    rw [length_cons, length_cons, checksumLoop, ih, hadd]
    omega

theorem toNat_fold (c : UInt32) :
    ((c &&& (0xffff : UInt32)) + c >>> (16 : UInt32)).toNat = OnesComplement.fold 65536 c.toNat := by
  have hc := c.toNat_lt
  rw [UInt32.toNat_add, UInt32.toNat_and, UInt32.toNat_shiftRight, show (0xffff : UInt32).toNat = 2 ^ 16 - 1 from rfl,
    Nat.and_two_pow_sub_one_eq_mod, show (16 : UInt32).toNat % 32 = 16 from rfl, Nat.shiftRight_eq_div_pow,
    Nat.mod_eq_of_lt (by omega)]
  rfl

theorem toNat_folds {c : UInt32} {ws : List ℕ} (hc : c.toNat = ws.sum) (hw : ∀ w ∈ ws, w < 65536) :
    (((c &&& (0xffff : UInt32)) + c >>> (16 : UInt32)) &&& (0xffff : UInt32)) +
        ((c &&& (0xffff : UInt32)) + c >>> (16 : UInt32)) >>> (16 : UInt32) =
      UInt32.ofNat (OnesComplement.sum 65536 ws) := by
  have hlt := c.toNat_lt
  have hfold := OnesComplement.fold_fold (show 1 < 65536 by decide) hw (by omega)
  apply UInt32.toNat_inj.mp
  rw [toNat_fold, toNat_fold, hc, hfold, UInt32.toNat_ofNat_of_lt']
  exact (OnesComplement.sum_lt (by decide) hw).trans (by decide)

/-- **`vsfip_checksum` is the one's-complement sum** of the words. -/
theorem checksum_sum (h : Holds m a bs) (hlen : bs.length ≤ 65535) :
    (checksum m a bs.length).toNat = OnesComplement.sum 65536 (words bs) := by
  have hle := words_sum_le bs
  have hloop := checksumLoop_sum m bs a 0 h (by rw [UInt32.toNat_zero]; omega)
  rw [UInt32.toNat_zero, zero_add] at hloop
  have hlt := OnesComplement.sum_lt (show 1 < 65536 by decide) (words_lt bs)
  unfold checksum
  dsimp only
  rw [toNat_folds hloop (words_lt bs), UInt32.toNat_toUInt16, UInt32.toNat_ofNat_of_lt' (hlt.trans (by decide)),
    Nat.mod_eq_of_lt hlt]

/-- The test of a header: the plain sum is a multiple of 65535 other than 0. -/
theorem checksum_eq_last (h : Holds m a bs) (hlen : bs.length ≤ 65535) :
    checksum m a bs.length = 0xffff ↔ (words bs).sum ≡ 0 [MOD 65535] ∧ (words bs).sum ≠ 0 := by
  rw [← OnesComplement.sum_eq_last (show 1 < 65536 by decide) (words_lt bs), ← checksum_sum h hlen, ← UInt16.toNat_inj]
  rfl

end Receive
end Vsf
