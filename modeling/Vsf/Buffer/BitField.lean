/-
# Fields of bits in a buffer

`buf_get_value` reads a field of up to 32 bits at any bit of a buffer, the low bit first, and
`buf_set_value` writes one, a byte each turn. The position is a byte itself, so a field is right if
it ends in the first 256 bits.
-/
import Mathlib

namespace Vsf
namespace BitField

open Function UInt8

/-- `(1 << bitlen) - 1`. -/
def mask (bitlen : UInt8) : UInt8 := UInt8.ofNat (2 ^ bitlen.toNat - 1)

/-- The loop of `buf_get_value`; a turn takes a bit at least. -/
def getLoop (buf : ℕ → UInt8) (len : UInt8) : ℕ → UInt8 → UInt8 → UInt32 → UInt32
  | 0, _, _, result => result
  | n + 1, offset, resultLen, result =>
    if resultLen < len then
      let bytepos := offset >>> 3
      let bitpos := offset &&& 7
      let bitlen := min (len - resultLen) (8 - bitpos)
      let part := (buf bytepos.toNat >>> bitpos) &&& mask bitlen
      getLoop buf len n (offset + bitlen) (resultLen + bitlen) (result ||| part.toUInt32 <<< resultLen.toUInt32)
    else result

def bufGetValue (buf : ℕ → UInt8) (offset len : UInt8) : UInt32 := getLoop buf len len.toNat offset 0 0

/-- `((v >> result_len) & mask) << bitpos`. -/
def shifted (v : UInt32) (resultLen bitlen bitpos : UInt8) : UInt32 :=
  ((v >>> resultLen.toUInt32) &&& (mask bitlen).toUInt32) <<< bitpos.toUInt32

/-- The loop of `buf_set_value`. -/
def setLoop (len : UInt8) (value : UInt32) : ℕ → UInt8 → UInt8 → (ℕ → UInt8) → ℕ → UInt8
  | 0, _, _, buf => buf
  | n + 1, offset, resultLen, buf =>
    if resultLen < len then
      let bytepos := (offset >>> 3).toNat
      let bitpos := offset &&& 7
      let bitlen := min (len - resultLen) (8 - bitpos)
      let buf := Function.update buf bytepos ((buf bytepos).toUInt32 &&& ~~~shifted 0xFFFFFFFF resultLen bitlen bitpos).toUInt8
      let buf := Function.update buf bytepos ((buf bytepos).toUInt32 ||| shifted value resultLen bitlen bitpos).toUInt8
      setLoop len value n (offset + bitlen) (resultLen + bitlen) buf
    else buf

def bufSetValue (buf : ℕ → UInt8) (offset len : UInt8) (value : UInt32) : ℕ → UInt8 := setLoop len value len.toNat offset 0 buf

/-- Bit `n` of a buffer. -/
def bit (buf : ℕ → UInt8) (n : ℕ) : Bool := (buf (n / 8)).toNat.testBit (n % 8)

/-- The number that the bits from `n` on are. -/
def field (buf : ℕ → UInt8) (n width : ℕ) : ℕ := Nat.ofBits fun k : Fin width => bit buf (n + k)

variable {buf : ℕ → UInt8} {n width k : ℕ}

theorem testBit_field : (field buf n width).testBit k = (decide (k < width) && bit buf (n + k)) := by
  by_cases hk : k < width
  · rw [field, Nat.testBit_ofBits_lt _ _ hk, decide_eq_true hk, Bool.true_and]
  · rw [decide_eq_false hk, Bool.false_and]
    exact Nat.testBit_lt_two_pow ((Nat.ofBits_lt_two_pow _).trans_le (Nat.pow_le_pow_right (by omega) (not_lt.mp hk)))

variable {buf' : ℕ → UInt8} {bytes : ℕ} {b r p offset len : UInt8} {v : UInt32}

theorem field_congr (h : n + width ≤ 8 * bytes) (heq : ∀ i < bytes, buf i = buf' i) :
    field buf n width = field buf' n width := by
  apply Nat.eq_of_testBit_eq
  intro k
  rw [testBit_field, testBit_field]
  by_cases hk : k < width
  · rw [bit, bit, heq _ (by omega)]
  · rw [decide_eq_false hk, Bool.false_and, Bool.false_and]

theorem field_zero (h : n + width ≤ 8 * bytes) (hz : ∀ i < bytes, buf i = 0) : field buf n width = 0 := by
  apply Nat.eq_of_testBit_eq
  intro k
  rw [testBit_field, Nat.zero_testBit]
  by_cases hk : k < width
  · rw [bit, hz _ (by omega), UInt8.toNat_zero, Nat.zero_testBit, Bool.and_false]
  · rw [decide_eq_false hk, Bool.false_and]

@[simp] theorem field_width_zero : field buf n 0 = 0 := rfl

theorem field_ne_zero (hk : k < width) (hb : bit buf (n + k) = true) : field buf n width ≠ 0 := by
  intro h
  have ht : (field buf n width).testBit k = (decide (k < width) && bit buf (n + k)) := testBit_field
  rw [h, Nat.zero_testBit, decide_eq_true hk, hb] at ht
  cases ht

/-! ### What the loop reads -/

theorem mask_toNat (h : b.toNat ≤ 8) : (mask b).toNat = 2 ^ b.toNat - 1 := by
  have hle : 2 ^ b.toNat ≤ 2 ^ 8 := Nat.pow_le_pow_right (by omega) h
  rw [mask, toNat_ofNat', Nat.mod_eq_of_lt (by omega)]

theorem testBit_part {x bitpos bitlen : UInt8} (hp : bitpos.toNat < 8) (hl : bitlen.toNat ≤ 8) :
    ((x >>> bitpos) &&& mask bitlen).toNat.testBit k =
      (decide (k < bitlen.toNat) && x.toNat.testBit (bitpos.toNat + k)) := by
  rw [UInt8.toNat_and, UInt8.toNat_shiftRight, mask_toNat hl, Nat.mod_eq_of_lt hp, Nat.testBit_and,
    Nat.testBit_two_pow_sub_one, Nat.testBit_shiftRight, Bool.and_comm]

theorem testBit_or_part {result : UInt32} {part : UInt8} {rl : ℕ} (hr : r.toNat = rl) (hlt : rl < 32)
    (hk : k < 32) :
    (result ||| part.toUInt32 <<< r.toUInt32).toNat.testBit k =
      (result.toNat.testBit k || (decide (rl ≤ k) && part.toNat.testBit (k - rl))) := by
  have hmod : (r.toUInt32.toNat) % 32 = rl := by
    rw [toNat_toUInt32, hr, Nat.mod_eq_of_lt hlt]
  rw [UInt32.toNat_or, Nat.testBit_or, UInt32.toNat_shiftLeft, hmod, toNat_toUInt32, Nat.testBit_mod_two_pow,
    Nat.testBit_shiftLeft, decide_eq_true hk, Bool.true_and]

theorem toNat_min (a b : UInt8) : (min a b).toNat = min a.toNat b.toNat := by
  show (if a ≤ b then a else b).toNat = min a.toNat b.toNat
  split_ifs with h
  · rw [min_eq_left (le_iff_toNat_le.mp h)]
  · rw [min_eq_right (le_iff_toNat_le.mp (UInt8.le_of_lt (UInt8.not_le.mp h)))]

/-- What a turn takes of the field: it ends where the field or the byte does. -/
theorem turn (hw : width ≤ 32) (hend : n + width ≤ 256) {offset resultLen len : UInt8} (hlen : len.toNat = width)
    (hlt : resultLen < len) (hoff : offset.toNat = n + resultLen.toNat) : resultLen.toNat < width ∧
    (offset &&& 7).toNat = offset.toNat % 8 ∧ (offset >>> 3).toNat = offset.toNat / 8 ∧
    ∃ b, b = min (width - resultLen.toNat) (8 - offset.toNat % 8) ∧ (min (len - resultLen) (8 - (offset &&& 7))).toNat = b ∧
      (resultLen + min (len - resultLen) (8 - (offset &&& 7))).toNat = resultLen.toNat + b ∧ (resultLen.toNat + b < width →
        (offset + min (len - resultLen) (8 - (offset &&& 7))).toNat = n + (resultLen.toNat + b)) := by
  have hltn : resultLen.toNat < width := hlen ▸ lt_iff_toNat_lt.mp hlt
  have hbitpos : (offset &&& 7).toNat = offset.toNat % 8 := by
    rw [UInt8.toNat_and]
    exact Nat.and_two_pow_sub_one_eq_mod _ 3
  have hbytepos : (offset >>> 3).toNat = offset.toNat / 8 := by
    rw [UInt8.toNat_shiftRight]
    exact Nat.shiftRight_eq_div_pow _ 3
  have hleft : (len - resultLen).toNat = width - resultLen.toNat := by
    rw [UInt8.toNat_sub_of_le _ _ (UInt8.le_of_lt hlt), hlen]
  have hroom : (8 - (offset &&& 7)).toNat = 8 - offset.toNat % 8 := by
    rw [UInt8.toNat_sub_of_le _ _ (le_iff_toNat_le.mpr (by rw [hbitpos]; show _ ≤ 8; omega)), hbitpos]
    rfl
  have hpart : (min (len - resultLen) (8 - (offset &&& 7))).toNat = min (width - resultLen.toNat) (8 - offset.toNat % 8) := by
    rw [toNat_min, hleft, hroom]
  refine ⟨hltn, hbitpos, hbytepos, _, rfl, hpart, ?_, fun hmore => ?_⟩
  · rw [UInt8.toNat_add, hpart, Nat.mod_eq_of_lt (by omega)]
  · rw [UInt8.toNat_add, hpart, Nat.mod_eq_of_lt (by omega), hoff]
    omega

/-- What is read so far. -/
structure Read (buf : ℕ → UInt8) (n width : ℕ) (offset resultLen : UInt8) (result : UInt32) : Prop where
  le : resultLen.toNat ≤ width
  here : resultLen.toNat < width → offset.toNat = n + resultLen.toNat
  bits : ∀ k, result.toNat.testBit k = (decide (k < resultLen.toNat) && bit buf (n + k))

theorem getLoop_eq (hw : width ≤ 32) (hend : n + width ≤ 256) {len : UInt8} (hlen : len.toNat = width) :
    ∀ (fuel : ℕ) {offset resultLen : UInt8} {result : UInt32}, Read buf n width offset resultLen result →
      width ≤ resultLen.toNat + fuel → (getLoop buf len fuel offset resultLen result).toNat = field buf n width
  | 0, offset, resultLen, result, h, hfuel => by
    apply Nat.eq_of_testBit_eq
    intro k
    have hrl : resultLen.toNat = width := le_antisymm h.le hfuel
    rw [testBit_field, getLoop, h.bits, hrl]
  | fuel + 1, offset, resultLen, result, h, hfuel => by
    unfold getLoop
    by_cases hlt : resultLen < len
    · have hoff := h.here (hlen ▸ lt_iff_toNat_lt.mp hlt)
      obtain ⟨hltn, hbitpos, hbytepos, b, hb, hpart, hrl', hoff'⟩ := turn hw hend hlen hlt hoff
      rw [if_pos hlt]
      apply getLoop_eq hw hend hlen fuel
      · refine ⟨by omega, fun hmore => ?_, fun k => ?_⟩
        · rw [hrl'] at hmore ⊢
          exact hoff' hmore
        · by_cases hk : k < 32
          · rw [testBit_or_part rfl (by omega) hk, h.bits, testBit_part (by omega) (by omega), hpart, hrl', hbitpos,
              hbytepos]
            by_cases hkr : k < resultLen.toNat
            · have hkp : k < resultLen.toNat + b := by omega
              rw [decide_eq_true hkr, decide_eq_false (not_le.mpr hkr), decide_eq_true hkp, Bool.false_and, Bool.or_false]
            · rw [decide_eq_false hkr, Bool.false_and, Bool.false_or, decide_eq_true (by omega), Bool.true_and]
              by_cases hkp : k - resultLen.toNat < b
              · have hdiv : (n + k) / 8 = offset.toNat / 8 := by omega
                have hmod : (n + k) % 8 = offset.toNat % 8 + (k - resultLen.toNat) := by omega
                rw [decide_eq_true hkp, decide_eq_true (by omega), bit, hdiv, hmod]
              · rw [decide_eq_false hkp, decide_eq_false (by omega), Bool.false_and, Bool.false_and]
          · have hbig : ∀ x : UInt32, x.toNat.testBit k = false := fun x =>
              Nat.testBit_lt_two_pow (x.toNat_lt.trans_le (Nat.pow_le_pow_right (by omega) (not_lt.mp hk)))
            rw [hbig, decide_eq_false (by omega), Bool.false_and]
      · omega
    · have hge : width ≤ resultLen.toNat := hlen ▸ le_iff_toNat_le.mp (UInt8.not_lt.mp hlt)
      rw [if_neg hlt]
      have hdone := getLoop_eq hw hend hlen 0 h (by omega)
      exact hdone

/-- **A field in the first 256 bits** is read. -/
theorem bufGetValue_eq (hw : width ≤ 32) (hend : n + width ≤ 256) :
    (bufGetValue buf (UInt8.ofNat n) (UInt8.ofNat width)).toNat = field buf n width := by
  have hlen : (UInt8.ofNat width).toNat = width := by
    rw [toNat_ofNat', Nat.mod_eq_of_lt (by omega)]
  apply getLoop_eq hw hend hlen
  · refine ⟨Nat.zero_le _, fun hpos => ?_, fun k => ?_⟩
    · have hpos' : 0 < width := hpos
      rw [toNat_ofNat', Nat.mod_eq_of_lt (by omega)]
      rfl
    · show (0 : ℕ).testBit k = (decide (k < 0) && _)
      rw [Nat.zero_testBit, decide_eq_false (Nat.not_lt_zero k), Bool.false_and]
  · rw [hlen]
    exact Nat.le_add_left ..

theorem getLoop_zero (hz : ∀ i < 32, buf i = 0) (len : UInt8) :
    ∀ (fuel : ℕ) (offset resultLen : UInt8), getLoop buf len fuel offset resultLen 0 = 0
  | 0, _, _ => rfl
  | fuel + 1, offset, resultLen => by
    unfold getLoop
    have hbyte : (offset >>> 3).toNat < 32 := by
      rw [UInt8.toNat_shiftRight]
      have := offset.toNat_lt
      show offset.toNat >>> 3 < 32
      omega
    split_ifs
    · have hpart : (0 : UInt32) ||| ((buf (offset >>> 3).toNat >>> (offset &&& 7)) &&&
          mask (min (len - resultLen) (8 - (offset &&& 7)))).toUInt32 <<< resultLen.toUInt32 = 0 := by
        rw [hz _ hbyte]
        simp
      show getLoop buf len fuel _ _ _ = 0
      rw [hpart]
      exact getLoop_zero hz len fuel _ _
    · rfl

theorem bufGetValue_zero (hz : ∀ i < 32, buf i = 0) (offset len : UInt8) : bufGetValue buf offset len = 0 :=
  getLoop_zero hz len _ _ _

/-! ### What the other loop writes -/

theorem testBit_shifted (hr : r.toNat < 32) (hp : p.toNat < 8) (hb : b.toNat ≤ 8) (hk : k < 8) :
    (shifted v r b p).toUInt8.toNat.testBit k =
      (decide (p.toNat ≤ k ∧ k < p.toNat + b.toNat) && v.toNat.testBit (r.toNat + (k - p.toNat))) := by
  have hr' : r.toUInt32.toNat % 32 = r.toNat := by
    rw [toNat_toUInt32, Nat.mod_eq_of_lt hr]
  have hp' : p.toUInt32.toNat % 32 = p.toNat := by
    rw [toNat_toUInt32, Nat.mod_eq_of_lt (by omega)]
  rw [shifted, UInt32.toNat_toUInt8, Nat.testBit_mod_two_pow, UInt32.toNat_shiftLeft, hp', Nat.testBit_mod_two_pow, Nat.testBit_shiftLeft,
    UInt32.toNat_and, Nat.testBit_and, UInt32.toNat_shiftRight, hr', Nat.testBit_shiftRight, toNat_toUInt32, mask_toNat hb,
    Nat.testBit_two_pow_sub_one, decide_eq_true hk, decide_eq_true (show k < 32 by omega), Bool.true_and, Bool.true_and]
  by_cases hpk : p.toNat ≤ k
  · simp [hpk, show (k - p.toNat < b.toNat ↔ k < p.toNat + b.toNat) by omega, Bool.and_comm]
  · simp [hpk]

theorem bit_turn {i : ℕ} (hr : r.toNat + b.toNat ≤ 32) (hb : b.toNat ≤ 8) (hpos : 0 < b.toNat)
    (hp : p.toNat < 8) (j : ℕ) :
    bit (Function.update (Function.update buf i ((buf i).toUInt32 &&& ~~~shifted 0xFFFFFFFF r b p).toUInt8) i
      ((Function.update buf i ((buf i).toUInt32 &&& ~~~shifted 0xFFFFFFFF r b p).toUInt8 i).toUInt32 ||| shifted v r b p).toUInt8) j =
      if j / 8 = i ∧ p.toNat ≤ j % 8 ∧ j % 8 < p.toNat + b.toNat then v.toNat.testBit (r.toNat + (j % 8 - p.toNat)) else bit buf j := by
  have hk : j % 8 < 8 := Nat.mod_lt _ (by decide)
  have hones : ∀ t < 32, (0xFFFFFFFF : UInt32).toNat.testBit t = true := by decide
  have hnot : ∀ x : UInt8, (~~~x).toNat.testBit (j % 8) = !x.toNat.testBit (j % 8) := by
    intro x
    rw [← toNat_toBitVec, UInt8.toBitVec_not, BitVec.testBit_toNat, BitVec.getLsbD_not, decide_eq_true hk, Bool.true_and,
      ← BitVec.testBit_toNat, toNat_toBitVec]
  unfold bit
  by_cases hi : j / 8 = i
  · subst hi
    simp only [update_self, UInt32.toUInt8_or, UInt32.toUInt8_and, UInt32.toUInt8_not, toUInt8_toUInt32]
    rw [UInt8.toNat_or, Nat.testBit_or, UInt8.toNat_and, Nat.testBit_and, hnot, testBit_shifted (by omega) hp hb hk,
      testBit_shifted (by omega) hp hb hk]
    by_cases hin : p.toNat ≤ j % 8 ∧ j % 8 < p.toNat + b.toNat
    · rw [hones _ (by omega), decide_eq_true hin]
      simp [hin]
    · rw [decide_eq_false hin, if_neg fun h => hin h.2]
      simp
  · rw [update_of_ne hi, update_of_ne hi, if_neg fun h => hi h.1]

theorem bit_setLoop (hw : width ≤ 32) (hend : n + width ≤ 256) {len : UInt8} (hlen : len.toNat = width) (value : UInt32) (j : ℕ) :
    ∀ (fuel : ℕ) {offset resultLen : UInt8} {buf : ℕ → UInt8}, (resultLen.toNat < width → offset.toNat = n + resultLen.toNat) →
      width ≤ resultLen.toNat + fuel → bit (setLoop len value fuel offset resultLen buf) j =
        if n + resultLen.toNat ≤ j ∧ j < n + width then value.toNat.testBit (j - n) else bit buf j
  | 0, offset, resultLen, buf, _, hfuel => by
    rw [setLoop, if_neg (by omega)]
  | fuel + 1, offset, resultLen, buf, hoff, hfuel => by
    unfold setLoop
    by_cases hlt : resultLen < len
    · have hhere := hoff (hlen ▸ lt_iff_toNat_lt.mp hlt)
      obtain ⟨hltn, hbitpos, hbytepos, b, hb, hpart, hrl', hoff'⟩ := turn hw hend hlen hlt hhere
      rw [if_pos hlt]
      refine (bit_setLoop hw hend hlen value j fuel (fun hmore => ?_) (by omega)).trans ?_
      · rw [hrl'] at hmore ⊢
        exact hoff' hmore
      · rw [bit_turn (by omega) (by omega) (by omega) (by omega), hrl', hpart, hbitpos, hbytepos]
        by_cases hin : n + resultLen.toNat ≤ j ∧ j < n + width
        · rw [if_pos hin]
          by_cases hpast : n + (resultLen.toNat + b) ≤ j
          · rw [if_pos ⟨hpast, hin.2⟩]
          · have hsub : resultLen.toNat + (j % 8 - offset.toNat % 8) = j - n := by omega
            rw [if_neg (by omega), if_pos (by omega), hsub]
        · rw [if_neg hin, if_neg (by omega), if_neg (by omega)]
    · have hge : width ≤ resultLen.toNat := hlen ▸ le_iff_toNat_le.mp (UInt8.not_lt.mp hlt)
      rw [if_neg hlt, if_neg (by omega)]

/-- **The bits after `buf_set_value`**: those of the value, around them the old ones. -/
theorem bit_bufSetValue (hlen : len.toNat ≤ 32) (hend : offset.toNat + len.toNat ≤ 256) (value : UInt32) (j : ℕ) :
    bit (bufSetValue buf offset len value) j =
      if offset.toNat ≤ j ∧ j < offset.toNat + len.toNat then value.toNat.testBit (j - offset.toNat) else bit buf j :=
  (bit_setLoop hlen hend rfl value j len.toNat (fun _ => rfl) (Nat.le_add_left ..) :
    bit (setLoop len value len.toNat offset 0 buf) j = _)

theorem bufGetValue_field (hlen : len.toNat ≤ 32) (hend : offset.toNat + len.toNat ≤ 256) :
    (bufGetValue buf offset len).toNat = field buf offset.toNat len.toNat := by
  have h : (bufGetValue buf (UInt8.ofNat offset.toNat) (UInt8.ofNat len.toNat)).toNat = _ := bufGetValue_eq hlen hend
  rwa [UInt8.ofNat_toNat, UInt8.ofNat_toNat] at h

theorem ext_bit (h : ∀ j, bit buf j = bit buf' j) : buf = buf' := by
  funext i
  apply UInt8.toNat_inj.mp
  apply Nat.eq_of_testBit_eq
  intro k
  by_cases hk : k < 8
  · have hbit := h (8 * i + k)
    rwa [bit, bit, Nat.mul_add_mod, Nat.mod_eq_of_lt hk, Nat.mul_add_div (by decide), Nat.div_eq_of_lt hk, add_zero] at hbit
  · have hbig : ∀ x : UInt8, x.toNat.testBit k = false := fun x =>
      Nat.testBit_lt_two_pow (x.toNat_lt.trans_le (Nat.pow_le_pow_right (by decide) (not_lt.mp hk)))
    rw [hbig, hbig]

/-- **A field that is written** reads back, and nothing else has changed. -/
theorem bufSetValue_right (buf : ℕ → UInt8) (offset len : UInt8) (value : UInt32) (hlen : len.toNat ≤ 32)
    (hend : offset.toNat + len.toNat ≤ 256) :
    (bufGetValue (bufSetValue buf offset len value) offset len).toNat = value.toNat % 2 ^ len.toNat ∧
    (∀ j, j < offset.toNat ∨ offset.toNat + len.toNat ≤ j → bit (bufSetValue buf offset len value) j = bit buf j) ∧
    (∀ offset' len' : UInt8, len'.toNat ≤ 32 → offset'.toNat + len'.toNat ≤ 256 →
      offset'.toNat + len'.toNat ≤ offset.toNat ∨ offset.toNat + len.toNat ≤ offset'.toNat →
      bufGetValue (bufSetValue buf offset len value) offset' len' = bufGetValue buf offset' len') ∧
    bufSetValue buf offset len (bufGetValue buf offset len) = buf := by
  have hout : ∀ j, j < offset.toNat ∨ offset.toNat + len.toNat ≤ j → bit (bufSetValue buf offset len value) j = bit buf j := by
    intro j hj
    rw [bit_bufSetValue hlen hend, if_neg (by omega)]
  refine ⟨?_, hout, fun offset' len' hlen' hend' hapart => ?_, ext_bit fun j => ?_⟩
  · rw [bufGetValue_field hlen hend]
    apply Nat.eq_of_testBit_eq
    intro k
    rw [testBit_field, Nat.testBit_mod_two_pow, bit_bufSetValue hlen hend]
    by_cases hk : k < len.toNat
    · rw [if_pos (by omega), Nat.add_sub_cancel_left]
    · rw [decide_eq_false hk, Bool.false_and, Bool.false_and]
  · apply UInt32.toNat_inj.mp
    rw [bufGetValue_field hlen' hend', bufGetValue_field hlen' hend']
    apply Nat.eq_of_testBit_eq
    intro k
    rw [testBit_field, testBit_field]
    by_cases hk : k < len'.toNat
    · rw [hout _ (by omega)]
    · rw [decide_eq_false hk, Bool.false_and, Bool.false_and]
  · rw [bit_bufSetValue hlen hend, bufGetValue_field hlen hend]
    by_cases hin : offset.toNat ≤ j ∧ j < offset.toNat + len.toNat
    · rw [if_pos hin, testBit_field, decide_eq_true (by omega), Bool.true_and, Nat.add_sub_cancel' hin.1]
    · rw [if_neg hin]

theorem bufSetValue_right_twelve :
    (bufGetValue (bufSetValue (fun _ => 0xFF) 6 12 0x1ABC) 6 12).toNat = (0x1ABC : UInt32).toNat % 2 ^ (12 : UInt8).toNat :=
  (bufSetValue_right (fun _ => 0xFF) 6 12 0x1ABC (by decide) (by decide)).1

end BitField
end Vsf
