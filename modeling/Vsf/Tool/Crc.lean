/-
# The two checksums of crc.c

`crc_calc` shifts a register to the left and takes 1, 2 or 4 bytes at a time; `crc32_get` shifts to
the right and takes bytes. The first keeps 32 bits and cuts them off at the end, which is the
register of the width at every step (`crcLoop_register`); the second is the first with every word
reversed, as a shift is linear (`crc32Shift_xor`).
-/
import Mathlib
import Vsf.Buffer.BitReverse

namespace Vsf
namespace Crc

/-- `enum crc_bitlen_t`. -/
inductive Bitlen
  | b8
  | b16
  | b32

def Bitlen.toNat : Bitlen → ℕ
  | b8 => 8
  | b16 => 16
  | b32 => 32

end Crc

open Crc in
/-- `struct crc_t`. -/
structure Crc where
  bitlen : Bitlen
  result : BitVec 32
  poly : BitVec 32

namespace Crc

open Bittool

/-! ### The functions -/

/-- A turn of the inner loop of `crc_calc`. -/
def crcShift (bitlen : ℕ) (poly result : BitVec 32) : BitVec 32 :=
  if result &&& (1#32 <<< (bitlen - 1)) ≠ 0 then (result <<< 1) ^^^ poly else result <<< 1

/-- The loop over the elements. -/
def crcLoop (bitlen : ℕ) (poly : BitVec 32) : List (BitVec bitlen) → BitVec 32 → BitVec 32
  | [], result => result
  | x :: buff, result => crcLoop bitlen poly buff ((crcShift bitlen poly)^[bitlen] (result ^^^ x.setWidth 32))

/-- `crc_calc`, of elements as wide as the register. -/
def crcCalc (crc : Crc) (buff : List (BitVec crc.bitlen.toNat)) : Crc :=
  { crc with result := crcLoop crc.bitlen.toNat crc.poly buff crc.result &&& (1#64 <<< crc.bitlen.toNat - 1).setWidth 32 }

/-- A turn of the inner loop of `crc32_get`. -/
def crc32Shift (crc : BitVec 32) : BitVec 32 := (crc >>> 1) ^^^ if crc &&& 1 ≠ 0 then 0xedb88320 else 0

/-- The loop over the bytes. -/
def crc32Loop : List (BitVec 8) → BitVec 32 → BitVec 32
  | [], crc => crc
  | b :: p, crc => crc32Loop p (crc32Shift^[8] (crc ^^^ b.setWidth 32))

/-- `crc32_get`. -/
def crc32Get (crc : BitVec 32) (p : List (BitVec 8)) : BitVec 32 := crc32Loop p crc ^^^ 0xffffffff

/-! ### A register of the width -/

/-- The register of a CRC, the high bit first. -/
def registerShift {l : ℕ} (poly r : BitVec l) : BitVec l := if r.getLsbD (l - 1) then (r <<< 1) ^^^ poly else r <<< 1

def register {l : ℕ} (poly : BitVec l) (xs : List (BitVec l)) (r : BitVec l) : BitVec l :=
  xs.foldl (fun r x => (registerShift poly)^[l] (r ^^^ x)) r

variable {l : ℕ} {poly r : BitVec 32}

theorem and_bit_ne_zero (r : BitVec 32) {k : ℕ} (hk : k < 32) : r &&& (1#32 <<< k) ≠ 0 ↔ r.getLsbD k = true := by
  have hne : BitVec.twoPow 32 k ≠ 0 := by
    intro h
    have hbit := congrArg (BitVec.getLsbD · k) h
    simp [hk] at hbit
  rw [← BitVec.twoPow_eq, BitVec.and_twoPow]
  by_cases h : r.getLsbD k = true
  · simp only [h, if_true, ne_eq, hne, not_false_eq_true]
  · simp [h]

theorem crcShift_setWidth (hl : 0 < l ∧ l ≤ 32) : (crcShift l poly r).setWidth l = registerShift (poly.setWidth l) (r.setWidth l) := by
  have hshl : (r <<< 1).setWidth l = r.setWidth l <<< 1 := by
    apply BitVec.eq_of_getLsbD_eq
    intro i hi
    simp only [BitVec.getLsbD_setWidth, BitVec.getLsbD_shiftLeft, hi, show i < 32 by omega, show i - 1 < l by omega, decide_true,
      Bool.true_and]
  have htop : (r.setWidth l).getLsbD (l - 1) = r.getLsbD (l - 1) := by
    simp [show l - 1 < l by omega]
  unfold crcShift registerShift
  rw [htop]
  by_cases h : r.getLsbD (l - 1) = true
  · rw [if_pos ((and_bit_ne_zero r (by omega)).mpr h), if_pos h, BitVec.setWidth_xor, hshl]
  · rw [if_neg (mt (and_bit_ne_zero r (by omega)).mp h), if_neg h, hshl]

/-- **The bits above the width** never get into the ones below it. -/
theorem crcLoop_register (hl : 0 < l ∧ l ≤ 32) : ∀ (buff : List (BitVec l)) (r : BitVec 32),
    (crcLoop l poly buff r).setWidth l = register (poly.setWidth l) buff (r.setWidth l)
  | [], _ => rfl
  | x :: buff, r => by
    have hsemi : Function.Semiconj (BitVec.setWidth l) (crcShift l poly) (registerShift (poly.setWidth l)) :=
      fun r => crcShift_setWidth hl
    have hx : (x.setWidth 32).setWidth l = x := by
      rw [BitVec.setWidth_setWidth (by omega), BitVec.setWidth_eq]
    rw [crcLoop, crcLoop_register hl buff, hsemi.iterate_right l, BitVec.setWidth_xor, hx]
    rfl

theorem crcCalc_result (crc : Crc) (buff : List (BitVec crc.bitlen.toNat)) : (crcCalc crc buff).result =
    (register (crc.poly.setWidth crc.bitlen.toNat) buff (crc.result.setWidth crc.bitlen.toNat)).setWidth 32 := by
  have hl : 0 < crc.bitlen.toNat ∧ crc.bitlen.toNat ≤ 32 := by
    cases crc.bitlen <;> decide
  have hmask : ∀ l : Bitlen, ∀ i < 32, ((1#64 <<< l.toNat - 1).setWidth 32).getLsbD i = decide (i < l.toNat) := by
    intro l
    cases l <;> decide
  rw [← crcLoop_register hl]
  apply BitVec.eq_of_getLsbD_eq
  intro i hi
  rw [crcCalc, BitVec.getLsbD_and, hmask _ i hi]
  simp only [BitVec.getLsbD_setWidth, hi, decide_true, Bool.true_and, Bool.and_comm]

theorem register_append (poly : BitVec l) (a b : List (BitVec l)) (r : BitVec l) :
    register poly (a ++ b) r = register poly b (register poly a r) := List.foldl_append ..

theorem crc32Loop_append : ∀ (a b : List (BitVec 8)) (c : BitVec 32), crc32Loop (a ++ b) c = crc32Loop b (crc32Loop a c)
  | [], _, _ => rfl
  | x :: a, b, c => crc32Loop_append a b (crc32Shift^[8] (c ^^^ x.setWidth 32))

/-- **The checksum of two parts** is the second's, from the first's on; `crc_calc` is the width's register. -/
theorem crc_append : (∀ (crc : Crc) (a b : List (BitVec crc.bitlen.toNat)), crcCalc crc (a ++ b) = crcCalc (crcCalc crc a) b ∧
      (crcCalc crc a).result =
        (register (crc.poly.setWidth crc.bitlen.toNat) a (crc.result.setWidth crc.bitlen.toNat)).setWidth 32) ∧
    ∀ (c : BitVec 32) (a b : List (BitVec 8)), crc32Get c (a ++ b) = crc32Get (crc32Get c a ^^^ 0xFFFFFFFF) b := by
  refine ⟨fun crc a b => ⟨?_, crcCalc_result crc a⟩, fun c a b => ?_⟩
  · have hle : crc.bitlen.toNat ≤ 32 := by
      cases crc.bitlen <;> decide
    have hresult : (crcCalc crc (a ++ b)).result = (crcCalc (crcCalc crc a) b).result := by
      rw [crcCalc_result, crcCalc_result (crcCalc crc a) b, crcCalc_result crc a, register_append]
      show _ = (register _ b (((register _ a _).setWidth 32).setWidth crc.bitlen.toNat)).setWidth 32
      rw [BitVec.setWidth_setWidth (by omega), BitVec.setWidth_eq]
      rfl
    exact congrArg (fun r => Crc.mk crc.bitlen r crc.poly) hresult
  · rw [crc32Get, crc32Get, crc32Get, crc32Loop_append, BitVec.xor_assoc, BitVec.xor_self, BitVec.xor_zero]

/-! ### One checksum and the other -/

theorem crc32Shift_eq (x : BitVec 32) : crc32Shift x = (x >>> 1) ^^^ if x.getLsbD 0 then 0xedb88320 else 0 := by
  have h := and_bit_ne_zero x (k := 0) (by decide)
  rw [show (1#32 <<< 0) = 1 from rfl] at h
  simp only [crc32Shift, h]

theorem crc32Shift_xor (x y : BitVec 32) : crc32Shift (x ^^^ y) = crc32Shift x ^^^ crc32Shift y := by
  have hcomm : ∀ a b c d : BitVec 32, a ^^^ b ^^^ (c ^^^ d) = a ^^^ c ^^^ (b ^^^ d) := by
    intro a b c d
    rw [BitVec.xor_assoc, BitVec.xor_assoc, ← BitVec.xor_assoc b, BitVec.xor_comm b, BitVec.xor_assoc c]
  rw [crc32Shift_eq, crc32Shift_eq, crc32Shift_eq, hcomm, BitVec.getLsbD_xor, BitVec.ushiftRight_xor_distrib]
  cases x.getLsbD 0 <;> cases y.getLsbD 0 <;> simp

theorem iterate_xor (k : ℕ) (x y : BitVec 32) : crc32Shift^[k] (x ^^^ y) = crc32Shift^[k] x ^^^ crc32Shift^[k] y := by
  induction k generalizing x y with
  | zero => rfl
  | succ k ih => rw [Function.iterate_succ_apply, crc32Shift_xor, ih, Function.iterate_succ_apply, Function.iterate_succ_apply]

theorem iterate_high {k : ℕ} {x : BitVec 32} (h : ∀ i < k, x.getLsbD i = false) : crc32Shift^[k] x = x >>> k := by
  induction k with
  | zero => simp
  | succ k ih =>
    have hlow : (x >>> k).getLsbD 0 = false := by
      rw [BitVec.getLsbD_ushiftRight]
      exact h k (Nat.lt_succ_self k)
    rw [Function.iterate_succ_apply', ih fun i hi => h i (Nat.lt_succ_of_lt hi), crc32Shift_eq, hlow]
    simp [BitVec.shiftRight_add]

/-- **Eight shifts** take the low byte of what was added; the rest only moves. -/
theorem crc32Shift_byte (c w : BitVec 32) :
    crc32Shift^[8] (c ^^^ w) = crc32Shift^[8] (c ^^^ (w.setWidth 8).setWidth 32) ^^^ (w >>> 8) := by
  have hlow : ∀ i < 32, ((w.setWidth 8).setWidth 32).getLsbD i = (decide (i < 8) && w.getLsbD i) := by
    intro i hi
    simp only [BitVec.getLsbD_setWidth, hi, decide_true, Bool.true_and]
  have hsplit : w = (w.setWidth 8).setWidth 32 ^^^ ((w.setWidth 8).setWidth 32 ^^^ w) := by
    rw [← BitVec.xor_assoc, BitVec.xor_self, BitVec.zero_xor]
  have hhigh : crc32Shift^[8] ((w.setWidth 8).setWidth 32 ^^^ w) = w >>> 8 := by
    rw [iterate_high]
    · apply BitVec.eq_of_getLsbD_eq
      intro i hi
      by_cases hi' : 8 + i < 32
      · simp only [BitVec.getLsbD_ushiftRight, BitVec.getLsbD_xor, hlow _ hi', show ¬8 + i < 8 by omega]
        simp
      · simp only [BitVec.getLsbD_ushiftRight]
        rw [BitVec.getLsbD_of_ge _ _ (by omega), BitVec.getLsbD_of_ge _ _ (by omega)]
    · intro i hi
      rw [BitVec.getLsbD_xor, hlow i (by omega)]
      simp [hi]
  calc crc32Shift^[8] (c ^^^ w)
      = crc32Shift^[8] ((c ^^^ (w.setWidth 8).setWidth 32) ^^^ ((w.setWidth 8).setWidth 32 ^^^ w)) := by
        rw [BitVec.xor_assoc, ← hsplit]
    _ = _ := by rw [iterate_xor, hhigh]

/-- The bytes of a word, the low one first. -/
def leBytes (w : BitVec 32) : List (BitVec 8) :=
  [w.setWidth 8, (w >>> 8).setWidth 8, (w >>> 16).setWidth 8, (w >>> 24).setWidth 8]

theorem crc32Loop_leBytes (c w : BitVec 32) : crc32Loop (leBytes w) c = crc32Shift^[32] (c ^^^ w) := by
  have hnext : ∀ (k : ℕ) (c : BitVec 32), crc32Shift^[8] (c ^^^ (w >>> k)) =
      crc32Shift^[8] (c ^^^ ((w >>> k).setWidth 8).setWidth 32) ^^^ (w >>> (k + 8)) := by
    intro k c
    rw [crc32Shift_byte, ← BitVec.shiftRight_add]
  have h0 := hnext 0 c
  rw [BitVec.ushiftRight_zero] at h0
  have h32 : w >>> (24 + 8) = 0 := BitVec.ushiftRight_eq_zero (by decide)
  have hfour : ∀ x, crc32Shift^[32] x = crc32Shift^[8] (crc32Shift^[8] (crc32Shift^[8] (crc32Shift^[8] x))) := fun _ => rfl
  rw [hfour, h0, hnext, hnext, hnext, h32]
  exact (BitVec.xor_zero ..).symm

theorem reverse_xor (x y : BitVec 32) : (x ^^^ y).reverse = x.reverse ^^^ y.reverse := by
  apply BitVec.eq_of_getLsbD_eq
  intro i hi
  simp only [BitVec.getLsbD_xor, getLsbD_reversed _ hi]

/-- A shift to the left is one to the right, of the bits the other way round. -/
theorem reverse_crcShift (r : BitVec 32) : (crcShift 32 0x04C11DB7 r).reverse = crc32Shift r.reverse := by
  have hshl : (r <<< 1).reverse = r.reverse >>> 1 := by
    apply BitVec.eq_of_getLsbD_eq
    intro i hi
    rw [getLsbD_reversed _ hi, BitVec.getLsbD_shiftLeft, BitVec.getLsbD_ushiftRight]
    by_cases hlast : 1 + i < 32
    · rw [getLsbD_reversed _ hlast, show 32 - 1 - i - 1 = 32 - 1 - (1 + i) by omega]
      simp [show 32 - 1 - i < 32 by omega, show ¬32 - 1 - i < 1 by omega]
    · rw [BitVec.getLsbD_of_ge r.reverse _ (by omega)]
      simp [show 32 - 1 - i < 1 by omega]
  have hpoly : (0x04C11DB7 : BitVec 32).reverse = 0xedb88320 := by
    rw [← Moves.reverse (k := 5) bitReverseU32_moves]
    decide
  have hbit : r.reverse.getLsbD 0 = r.getLsbD (32 - 1) := getLsbD_reversed r (by decide)
  rw [crc32Shift_eq, hbit, crcShift]
  by_cases h : r.getLsbD (32 - 1) = true
  · rw [if_pos ((and_bit_ne_zero r (by decide)).mpr h), if_pos h, reverse_xor, hshl, hpoly]
  · rw [if_neg (mt (and_bit_ne_zero r (by decide)).mp h), if_neg h, hshl]
    exact (BitVec.xor_zero ..).symm

theorem crcLoop_reverse : ∀ (ws : List (BitVec 32)) (c : BitVec 32),
    (crcLoop 32 0x04C11DB7 (ws.map BitVec.reverse) c.reverse).reverse = crc32Loop (ws.flatMap leBytes) c
  | [], c => BitVec.reverse_reverse_eq
  | w :: ws, c => by
    have hsemi : Function.Semiconj BitVec.reverse (crcShift 32 0x04C11DB7) crc32Shift := reverse_crcShift
    have hstep : (crcShift 32 0x04C11DB7)^[32] (c.reverse ^^^ w.reverse) = (crc32Shift^[32] (c ^^^ w)).reverse := by
      rw [← BitVec.reverse_reverse_eq (x := (crcShift 32 0x04C11DB7)^[32] _), hsemi.iterate_right 32, reverse_xor,
        BitVec.reverse_reverse_eq, BitVec.reverse_reverse_eq]
    rw [List.map_cons, crcLoop, BitVec.setWidth_eq, hstep, crcLoop_reverse ws, List.flatMap_cons, crc32Loop_append, crc32Loop_leBytes]

/-- **The two checksums agree**, the one on the reversed words of the other. -/
theorem crc32_reflects (c : BitVec 32) (ws : List (BitVec 32)) : crc32Get c (ws.flatMap leBytes) ^^^ 0xFFFFFFFF =
    bitReverseU32 (crcCalc ⟨.b32, bitReverseU32 c, 0x04C11DB7⟩ (ws.map bitReverseU32)).result := by
  have hrev : ∀ v, bitReverseU32 v = v.reverse := Moves.reverse (k := 5) bitReverseU32_moves
  have hall : ∀ r : BitVec 32, r &&& (1#64 <<< Bitlen.b32.toNat - 1).setWidth 32 = r := by
    intro r
    exact BitVec.and_allOnes
  rw [crc32Get, BitVec.xor_assoc, BitVec.xor_self, BitVec.xor_zero, ← crcLoop_reverse, hrev, hrev, funext hrev, crcCalc]
  exact congrArg BitVec.reverse (hall _).symm

end Crc
end Vsf
