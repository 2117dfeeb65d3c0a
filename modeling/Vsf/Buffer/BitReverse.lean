/-
# Bits and bytes the other way round

`BIT_REVERSE_U8` to `BIT_REVERSE_U64` and `SWAP_U16` to `SWAP_U64`, each as a function (`bittool.c`)
and as a macro (`vsf_type.h`). A stage exchanges the bits whose numbers differ by a power of two
(`Moves`). The last stage of `BIT_REVERSE_U64C` shifts by 1 in place of 32, and `SWAP_U24` does not
mask the byte that it moves down.
-/
import Mathlib

namespace Vsf
namespace Bittool

variable {n x y s : ℕ}

/-! ### The functions and the macros -/

/-- `((v >> s) & lo) | ((v << s) & hi)`. -/
def exchange (s : ℕ) (lo hi v : BitVec n) : BitVec n := ((v >>> s) &&& lo) ||| ((v <<< s) &&& hi)

/-- `(v >> s) | (v << s)`. -/
def halves (s : ℕ) (v : BitVec n) : BitVec n := (v >>> s) ||| (v <<< s)

def swapU16 (v16 : BitVec 16) : BitVec 16 := halves 8 v16

def swapU24 (v32 : BitVec 32) : BitVec 32 := (v32 >>> 16) ||| (v32 &&& 0x0000FF00) ||| ((v32 &&& 0x000000FF) <<< 16)

def swapU32 (v32 : BitVec 32) : BitVec 32 := halves 16 (exchange 8 0x00FF00FF 0xFF00FF00 v32)

def swapU64 (v64 : BitVec 64) : BitVec 64 :=
  halves 32 (exchange 16 0x0000FFFF0000FFFF 0xFFFF0000FFFF0000 (exchange 8 0x00FF00FF00FF00FF 0xFF00FF00FF00FF00 v64))

def bitReverseU8 (v8 : BitVec 8) : BitVec 8 := exchange 4 0x0F 0xF0 (exchange 2 0x33 0xCC (exchange 1 0x55 0xAA v8))

def bitReverseU16 (v16 : BitVec 16) : BitVec 16 :=
  swapU16 (exchange 4 0x0F0F 0xF0F0 (exchange 2 0x3333 0xCCCC (exchange 1 0x5555 0xAAAA v16)))

def bitReverseU32 (v32 : BitVec 32) : BitVec 32 :=
  swapU32 (exchange 4 0x0F0F0F0F 0xF0F0F0F0 (exchange 2 0x33333333 0xCCCCCCCC (exchange 1 0x55555555 0xAAAAAAAA v32)))

def bitReverseU64 (v64 : BitVec 64) : BitVec 64 :=
  swapU64 (exchange 4 0x0F0F0F0F0F0F0F0F 0xF0F0F0F0F0F0F0F0 (exchange 2 0x3333333333333333 0xCCCCCCCCCCCCCCCC
    (exchange 1 0x5555555555555555 0xAAAAAAAAAAAAAAAA v64)))

def swapU16C (v : BitVec 16) : BitVec 16 := ((v &&& 0xFF00) >>> 8) ||| ((v &&& 0x00FF) <<< 8)

def swapU24C (v : BitVec 32) : BitVec 32 :=
  ((v &&& 0x00FF0000) >>> 16) ||| ((v &&& 0x0000FF00) <<< 0) ||| ((v &&& 0x000000FF) <<< 16)

def swapU32C (v : BitVec 32) : BitVec 32 :=
  ((v &&& 0xFF000000) >>> 24) ||| ((v &&& 0x00FF0000) >>> 8) ||| ((v &&& 0x0000FF00) <<< 8) ||| ((v &&& 0x000000FF) <<< 24)

def swapU64C (v : BitVec 64) : BitVec 64 :=
  ((v &&& 0xFF00000000000000) >>> 56) ||| ((v &&& 0x00FF000000000000) >>> 40) ||| ((v &&& 0x0000FF0000000000) >>> 24) |||
    ((v &&& 0x000000FF00000000) >>> 8) ||| ((v &&& 0x00000000FF000000) <<< 8) ||| ((v &&& 0x0000000000FF0000) <<< 24) |||
    ((v &&& 0x000000000000FF00) <<< 40) ||| ((v &&& 0x00000000000000FF) <<< 56)

def bitReverseU8C (v8 : BitVec 8) : BitVec 8 := exchange 4 0x0f 0xf0 (exchange 2 0x33 0xcc (exchange 1 0x55 0xaa v8))

def bitReverseU16C (v16 : BitVec 16) : BitVec 16 :=
  exchange 8 0x00ff 0xff00 (exchange 4 0x0f0f 0xf0f0 (exchange 2 0x3333 0xcccc (exchange 1 0x5555 0xaaaa v16)))

def bitReverseU32C (v32 : BitVec 32) : BitVec 32 :=
  exchange 16 0x0000ffff 0xffff0000 (exchange 8 0x00ff00ff 0xff00ff00 (exchange 4 0x0f0f0f0f 0xf0f0f0f0
    (exchange 2 0x33333333 0xcccccccc (exchange 1 0x55555555 0xaaaaaaaa v32))))

/-- The stages of `BIT_REVERSE_U64C` but for the last. -/
def reverseHalves (v64 : BitVec 64) : BitVec 64 :=
  exchange 16 0x0000ffff0000ffff 0xffff0000ffff0000 (exchange 8 0x00ff00ff00ff00ff 0xff00ff00ff00ff00
    (exchange 4 0x0f0f0f0f0f0f0f0f 0xf0f0f0f0f0f0f0f0 (exchange 2 0x3333333333333333 0xcccccccccccccccc
      (exchange 1 0x5555555555555555 0xaaaaaaaaaaaaaaaa v64))))

/-- `BIT_REVERSE_U64C`, whose last stage shifts by 1. -/
def bitReverseU64C (v64 : BitVec 64) : BitVec 64 := exchange 1 0x00000000ffffffff 0xffffffff00000000 (reverseHalves v64)

/-- `p[k]`, `p[k + 1]`, .. shifted and joined. -/
def joined (n : ℕ) (p : ℕ → BitVec 8) : List ℕ → ℕ → BitVec n
  | [], _ => 0
  | s :: ss, k => (p k).setWidth n <<< s ||| joined n p ss (k + 1)

def getU16MsbFirst (p : ℕ → BitVec 8) : BitVec 16 := joined 16 p [8, 0] 0
def getU24MsbFirst (p : ℕ → BitVec 8) : BitVec 32 := joined 32 p [16, 8, 0] 0
def getU32MsbFirst (p : ℕ → BitVec 8) : BitVec 32 := joined 32 p [24, 16, 8, 0] 0
def getU64MsbFirst (p : ℕ → BitVec 8) : BitVec 64 := joined 64 p [56, 48, 40, 32, 24, 16, 8, 0] 0
def getU16LsbFirst (p : ℕ → BitVec 8) : BitVec 16 := joined 16 p [0, 8] 0
def getU24LsbFirst (p : ℕ → BitVec 8) : BitVec 32 := joined 32 p [0, 8, 16] 0
def getU32LsbFirst (p : ℕ → BitVec 8) : BitVec 32 := joined 32 p [0, 8, 16, 24] 0
def getU64LsbFirst (p : ℕ → BitVec 8) : BitVec 64 := joined 64 p [0, 8, 16, 24, 32, 40, 48, 56] 0

/-! ### Where the bits go -/

theorem getLsbD_reversed (v : BitVec n) {i : ℕ} (hi : i < n) : v.reverse.getLsbD i = v.getLsbD (n - 1 - i) := by
  rw [BitVec.getLsbD_reverse, BitVec.getMsbD_eq_getLsbD, decide_eq_true hi, Bool.true_and]

/-- Bit `i` comes from `i ^^^ x`. -/
def Moves (x : ℕ) (f : BitVec n → BitVec n) : Prop := ∀ v, ∀ i < n, (f v).getLsbD i = v.getLsbD (i ^^^ x)

theorem Moves.eq {f g : BitVec n → BitVec n} (hf : Moves x f) (hg : Moves x g) (v : BitVec n) : f v = g v := by
  apply BitVec.eq_of_getLsbD_eq
  intro i hi
  rw [hf v i hi, hg v i hi]

variable {k : ℕ} {f : BitVec (2 ^ k) → BitVec (2 ^ k)}

theorem Moves.comp {g : BitVec (2 ^ k) → BitVec (2 ^ k)} (hg : Moves y g) (hf : Moves x f) (hy : y < 2 ^ k) :
    Moves (x ^^^ y) fun v => g (f v) := by
  intro v i hi
  rw [hg _ i hi, hf v _ (Nat.xor_lt_two_pow hi hy), Nat.xor_assoc, xor_comm y x]

theorem exchange_moves {lo hi : BitVec n} (h : ∀ i < n, (lo.getLsbD i = true ∧ hi.getLsbD i = false ∧ s + i = i ^^^ x) ∨
    (lo.getLsbD i = false ∧ hi.getLsbD i = true ∧ s ≤ i ∧ i - s = i ^^^ x)) : Moves x (exchange s lo hi) := by
  intro v i hi
  rw [exchange, BitVec.getLsbD_or, BitVec.getLsbD_and, BitVec.getLsbD_and, BitVec.getLsbD_ushiftRight, BitVec.getLsbD_shiftLeft]
  rcases h i hi with ⟨hlo, hhi, heq⟩ | ⟨hlo, hhi, hle, heq⟩
  · simp [hlo, hhi, heq]
  · simp only [hlo, hhi, heq, hi, not_lt.mpr hle]
    simp

theorem halves_moves (h : ∀ i < n, (i < s ∧ s + i = i ^^^ x) ∨ (s ≤ i ∧ n ≤ s + i ∧ i - s = i ^^^ x)) :
    Moves x (halves s : BitVec n → BitVec n) := by
  intro v i hi
  rw [halves, BitVec.getLsbD_or, BitVec.getLsbD_ushiftRight, BitVec.getLsbD_shiftLeft]
  rcases h i hi with ⟨hlt, heq⟩ | ⟨hle, hend, heq⟩
  · simp [hlt, heq]
  · simp only [heq, hi, not_lt.mpr hle, BitVec.getLsbD_of_ge v _ hend]
    simp

/-- **All bits the other way round**: twice is nothing. -/
theorem Moves.reverse (hf : Moves (2 ^ k - 1) f) (v : BitVec (2 ^ k)) : f v = v.reverse := by
  apply BitVec.eq_of_getLsbD_eq
  intro i hi
  have hsub : i ^^^ (2 ^ k - 1) = 2 ^ k - 1 - i := by
    apply Nat.eq_of_testBit_eq
    intro j
    rw [Nat.testBit_xor, Nat.testBit_two_pow_sub_one, show 2 ^ k - 1 - i = 2 ^ k - (i + 1) by omega,
      Nat.testBit_two_pow_sub_succ hi]
    by_cases hj : j < k
    · simp [hj]
    · have hbig : i.testBit j = false := Nat.testBit_lt_two_pow (hi.trans_le (Nat.pow_le_pow_right (by omega) (not_lt.mp hj)))
      simp [hj, hbig]
  rw [hf v i hi, hsub, getLsbD_reversed v hi]

theorem swapU16_moves : Moves 8 swapU16 := halves_moves (by decide)

theorem swapU32_moves : Moves 24 swapU32 :=
  (halves_moves (x := 16) (by decide)).comp (k := 5) (exchange_moves (x := 8) (by decide)) (by decide)

theorem swapU64_moves : Moves 56 swapU64 :=
  (halves_moves (x := 32) (by decide)).comp (k := 6) ((exchange_moves (x := 16) (by decide)).comp (k := 6)
    (exchange_moves (x := 8) (by decide)) (by decide)) (by decide)

theorem swapU16C_moves : Moves 8 swapU16C := by
  intro v i hi
  unfold swapU16C
  interval_cases i <;> simp

theorem swapU32C_moves : Moves 24 swapU32C := by
  intro v i hi
  unfold swapU32C
  interval_cases i <;> simp

theorem swapU64C_moves : Moves 56 swapU64C := by
  intro v i hi
  unfold swapU64C
  interval_cases i <;> simp

/-- The stages that reverse the bits of each byte, and the ones behind them. -/
theorem Moves.bytes {lo1 hi1 lo2 hi2 lo4 hi4 : BitVec (2 ^ k)} (hk : 3 ≤ k)
    (h1 : Moves 1 (exchange 1 lo1 hi1)) (h2 : Moves 2 (exchange 2 lo2 hi2)) (h4 : Moves 4 (exchange 4 lo4 hi4))
    (hf : Moves x f) (hx : x < 2 ^ k) :
    Moves (7 ^^^ x) fun v => f (exchange 4 lo4 hi4 (exchange 2 lo2 hi2 (exchange 1 lo1 hi1 v))) := by
  have hle : 2 ^ 3 ≤ 2 ^ k := Nat.pow_le_pow_right (by decide) hk
  exact hf.comp (h4.comp (h2.comp h1 (by omega)) (by omega)) hx

theorem bitReverseU8_moves : Moves 7 bitReverseU8 :=
  Moves.bytes (k := 3) (x := 0) (f := id) le_rfl (exchange_moves (by decide)) (exchange_moves (by decide)) (exchange_moves (by decide))
    (fun v i _ => by rw [Nat.xor_zero, id]) (by decide)

theorem bitReverseU16_moves : Moves 15 bitReverseU16 :=
  Moves.bytes (k := 4) (by decide) (exchange_moves (by decide)) (exchange_moves (by decide)) (exchange_moves (by decide))
    swapU16_moves (by decide)

theorem bitReverseU16C_moves : Moves 15 bitReverseU16C :=
  Moves.bytes (k := 4) (x := 8) (by decide) (exchange_moves (by decide)) (exchange_moves (by decide)) (exchange_moves (by decide))
    (exchange_moves (by decide)) (by decide)

theorem bitReverseU32_moves : Moves 31 bitReverseU32 :=
  Moves.bytes (k := 5) (by decide) (exchange_moves (by decide)) (exchange_moves (by decide)) (exchange_moves (by decide))
    swapU32_moves (by decide)

theorem bitReverseU32C_moves : Moves 31 bitReverseU32C :=
  Moves.bytes (k := 5) (f := fun v => exchange 16 0x0000ffff 0xffff0000 (exchange 8 0x00ff00ff 0xff00ff00 v)) (by decide)
    (exchange_moves (by decide)) (exchange_moves (by decide)) (exchange_moves (by decide))
    ((exchange_moves (x := 16) (by decide)).comp (k := 5) (exchange_moves (x := 8) (by decide)) (by decide)) (by decide)

theorem bitReverseU64_moves : Moves 63 bitReverseU64 :=
  Moves.bytes (k := 6) (by decide) (exchange_moves (by decide)) (exchange_moves (by decide)) (exchange_moves (by decide))
    swapU64_moves (by decide)

theorem reverseHalves_moves : Moves 31 reverseHalves :=
  Moves.bytes (k := 6) (f := fun v => exchange 16 0x0000ffff0000ffff 0xffff0000ffff0000
    (exchange 8 0x00ff00ff00ff00ff 0xff00ff00ff00ff00 v)) (by decide)
    (exchange_moves (by decide)) (exchange_moves (by decide)) (exchange_moves (by decide))
    ((exchange_moves (x := 16) (by decide)).comp (k := 6) (exchange_moves (x := 8) (by decide)) (by decide)) (by decide)

/-! ### Readings -/

theorem Moves.or {f : BitVec n → BitVec n} (hf : Moves x f) (v w : BitVec n) : f (v ||| w) = f v ||| f w := by
  apply BitVec.eq_of_getLsbD_eq
  intro i hi
  rw [BitVec.getLsbD_or, hf v i hi, hf w i hi, hf _ i hi, BitVec.getLsbD_or]

/-- The byte at bit `s` is moved to bit `t`. -/
def Carries (n x s t : ℕ) : Prop := ∀ i < n, i ^^^ x < n ∧
  (t ≤ i ∧ s ≤ i ^^^ x ∧ (i ^^^ x) - s = i - t ∨ (i < t ∨ t + 8 ≤ i) ∧ (i ^^^ x < s ∨ s + 8 ≤ i ^^^ x))

instance : Decidable (Carries n x s y) := inferInstanceAs (Decidable (∀ i < n, _))

theorem getLsbD_byte_out (b : BitVec 8) {i : ℕ} (h : i < s ∨ s + 8 ≤ i) : (b.setWidth n <<< s).getLsbD i = false := by
  rw [BitVec.getLsbD_shiftLeft, BitVec.getLsbD_setWidth]
  rcases h with hlt | hle
  · simp [hlt]
  · simp [BitVec.getLsbD_of_ge b (i - s) (by omega)]

theorem Moves.byte {f : BitVec n → BitVec n} {t : ℕ} (hf : Moves x f) (b : BitVec 8) (h : Carries n x s t) :
    f (b.setWidth n <<< s) = b.setWidth n <<< t := by
  apply BitVec.eq_of_getLsbD_eq
  intro i hi
  rw [hf _ i hi]
  obtain ⟨hlt, ⟨hle, hle', heq⟩ | ⟨hout, hout'⟩⟩ := h i hi
  · rw [BitVec.getLsbD_shiftLeft, BitVec.getLsbD_shiftLeft]
    simp only [hlt, hi, not_lt.mpr hle, not_lt.mpr hle', heq]
  · rw [getLsbD_byte_out b hout', getLsbD_byte_out b hout]

/-- **A reading with its bytes the other way round** is the other reading. -/
theorem Moves.joined {f : BitVec n → BitVec n} (hf : Moves x f) (p : ℕ → BitVec 8) :
    ∀ (ss : List ℕ) (k : ℕ), (∀ s ∈ ss, Carries n x s (n - 8 - s)) → f (joined n p ss k) = joined n p (ss.map (n - 8 - ·)) k
  | [], k, _ => by
    apply BitVec.eq_of_getLsbD_eq
    intro i hi
    rw [hf _ i hi]
    simp [Bittool.joined]
  | s :: ss, k, h => by
    rw [Bittool.joined, hf.or, hf.byte _ (h s List.mem_cons_self), hf.joined p ss (k + 1) fun t ht => h t (List.mem_cons_of_mem s ht)]
    rfl

theorem swapU24_getU24MsbFirst (p : ℕ → BitVec 8) : swapU24 (getU24MsbFirst p) = getU24LsbFirst p := by
  apply BitVec.eq_of_getLsbD_eq
  intro i hi
  simp only [swapU24, getU24MsbFirst, getU24LsbFirst, joined]
  interval_cases i <;> simp

/-! ### The two slips -/

/-- `SWAP_U24` is the macro where the high byte adds no bit to the second one. -/
theorem swapU24_iff (v : BitVec 32) : swapU24 v = swapU24C v ↔ ∀ i < 8, v.getLsbD (24 + i) = true → v.getLsbD (8 + i) = true := by
  have hbit : ∀ i < 32, (swapU24 v).getLsbD i =
      ((swapU24C v).getLsbD i || (decide (8 ≤ i ∧ i < 16) && v.getLsbD (16 + i))) := by
    intro i hi
    unfold swapU24 swapU24C
    interval_cases i <;> simp
    all_goals exact Bool.or_comm ..
  have hmid : ∀ i < 8, (swapU24C v).getLsbD (8 + i) = v.getLsbD (8 + i) := by
    intro i hi
    unfold swapU24C
    interval_cases i <;> simp
  constructor
  · intro h i hi hv
    have h8 := hbit (8 + i) (by omega)
    rw [h, hmid i hi, show 16 + (8 + i) = 24 + i by omega, hv] at h8
    have hm : decide (8 ≤ 8 + i ∧ 8 + i < 16) = true := decide_eq_true (by omega)
    rw [hm, Bool.true_and, Bool.or_true] at h8
    exact h8
  · intro h
    apply BitVec.eq_of_getLsbD_eq
    intro i hi
    rw [hbit i hi]
    by_cases hm : 8 ≤ i ∧ i < 16
    · obtain ⟨j, rfl⟩ := Nat.exists_eq_add_of_le hm.1
      rw [hmid j (by omega), show 16 + (8 + j) = 24 + j by omega]
      have hj := h j (by omega)
      cases hv : v.getLsbD (24 + j)
      · simp
      · simp [hj hv]
    · rw [decide_eq_false hm, Bool.false_and, Bool.or_false]

/-- The bits that the last stage of `BIT_REVERSE_U64C` takes from the wrong places. -/
def Unshifted (v : BitVec 64) : Prop :=
  (∀ k < 31, v.getLsbD (k + 33) = v.getLsbD k) ∧ v.getLsbD 63 = v.getLsbD 32 ∧ v.getLsbD 31 = v.getLsbD 0

theorem getLsbD_bitReverseU64C (v : BitVec 64) (i : ℕ) (hi : i < 64) :
    (bitReverseU64C v).getLsbD i = v.getLsbD ((if i < 32 then 1 + i else i - 1) ^^^ 31) := by
  have hread : ∀ i < 64, (if i < 32 then 1 + i else i - 1) < 64 := by decide
  have hmask : ∀ i < 64, (0x00000000ffffffff : BitVec 64).getLsbD i = decide (i < 32) ∧
      (0xffffffff00000000 : BitVec 64).getLsbD i = !decide (i < 32) := by decide
  rw [← reverseHalves_moves v _ (hread i hi), bitReverseU64C, exchange, BitVec.getLsbD_or, BitVec.getLsbD_and,
    BitVec.getLsbD_and, BitVec.getLsbD_ushiftRight, BitVec.getLsbD_shiftLeft, (hmask i hi).1, (hmask i hi).2]
  by_cases hlow : i < 32
  · simp [hlow]
  · simp only [hlow, hi, show ¬i < 1 by omega]
    simp

theorem bitReverseU64C_iff (v : BitVec 64) : bitReverseU64C v = v.reverse ↔ Unshifted v := by
  have hall : bitReverseU64C v = v.reverse ↔
      ∀ i < 64, v.getLsbD ((if i < 32 then 1 + i else i - 1) ^^^ 31) = v.getLsbD (63 - i) := by
    constructor
    · intro h i hi
      rw [← getLsbD_bitReverseU64C v i hi, h, getLsbD_reversed v hi]
    · intro h
      apply BitVec.eq_of_getLsbD_eq
      intro i hi
      rw [getLsbD_bitReverseU64C v i hi, h i hi, getLsbD_reversed v hi]
  rw [hall]
  constructor
  · intro h
    refine ⟨fun k hk => ?_, h 31 (by decide), (h 32 (by decide)).symm⟩
    have hlow : ∀ k < 31, (if 30 - k < 32 then 1 + (30 - k) else 30 - k - 1) ^^^ 31 = k ∧ 63 - (30 - k) = k + 33 := by decide
    have hk' := h (30 - k) (by omega)
    rw [(hlow k hk).1, (hlow k hk).2] at hk'
    exact hk'.symm
  · rintro ⟨hk, h63, h31⟩ i hi
    have hcase : ∀ i < 64, (i = 31 ∧ (if i < 32 then 1 + i else i - 1) ^^^ 31 = 63) ∨
        (i = 32 ∧ (if i < 32 then 1 + i else i - 1) ^^^ 31 = 0) ∨
        (i < 31 ∧ (if i < 32 then 1 + i else i - 1) ^^^ 31 = 30 - i ∧ 63 - i = 30 - i + 33) ∨
        (32 < i ∧ (if i < 32 then 1 + i else i - 1) ^^^ 31 = 63 - i + 33) := by decide
    rcases hcase i hi with ⟨rfl, heq⟩ | ⟨rfl, heq⟩ | ⟨hlt, heq, hsub⟩ | ⟨hlt, heq⟩
    · rw [heq, h63]
    · rw [heq, h31]
    · rw [heq, hsub, hk _ (by omega)]
    · rw [heq, hk _ (by omega)]

theorem Unshifted.reverse {v : BitVec 64} (h : Unshifted v) : Unshifted v.reverse := by
  obtain ⟨hk, h63, h31⟩ := h
  refine ⟨fun k hk' => ?_, ?_, ?_⟩
  · have h30 := hk (30 - k) (by omega)
    rw [show 30 - k + 33 = 64 - 1 - k by omega] at h30
    rw [getLsbD_reversed v (by omega), getLsbD_reversed v (by omega), h30, show 64 - 1 - (k + 33) = 30 - k by omega]
  · rw [getLsbD_reversed v (by decide), getLsbD_reversed v (by decide), h31]
  · rw [getLsbD_reversed v (by decide), getLsbD_reversed v (by decide), h63]

/-! ### Both forms -/

/-- The two forms reverse the bits of the value, and both are involutions there. -/
structure Reverses (f c : BitVec n → BitVec n) (v : BitVec n) : Prop where
  bits : ∀ i < n, (f v).getLsbD (n - 1 - i) = v.getLsbD i
  same : c v = f v
  twice : f (f v) = v
  macroTwice : c (c v) = v

theorem reverses_of {f c : BitVec n → BitVec n} (hf : ∀ v, f v = v.reverse) {v : BitVec n} (hc : c v = v.reverse)
    (hc' : c v.reverse = v) : Reverses f c v := by
  refine ⟨fun i hi => ?_, hc.trans (hf v).symm, ?_, ?_⟩
  · rw [hf, getLsbD_reversed v (by omega), show n - 1 - (n - 1 - i) = i by omega]
  · rw [hf, hf, BitVec.reverse_reverse_eq]
  · rw [hc, hc']

theorem Moves.reverses {c : BitVec (2 ^ k) → BitVec (2 ^ k)} (hf : Moves (2 ^ k - 1) f) (hc : Moves (2 ^ k - 1) c)
    (v : BitVec (2 ^ k)) : Reverses f c v :=
  reverses_of hf.reverse (hc.reverse v) (by rw [hc.reverse, BitVec.reverse_reverse_eq])

/-- **Bits and bytes the other way round**: the forms agree, but for `SWAP_U24` with a high byte and
`BIT_REVERSE_U64C` with its last shift. -/
theorem reversal_right (a : BitVec 8) (b : BitVec 16) (c : BitVec 32) (d : BitVec 64) (p : ℕ → BitVec 8) :
    (Reverses bitReverseU8 bitReverseU8C a ∧ Reverses bitReverseU16 bitReverseU16C b ∧
      Reverses bitReverseU32 bitReverseU32C c ∧ (Reverses bitReverseU64 bitReverseU64C d ↔ Unshifted d)) ∧
    (swapU16 b = swapU16C b ∧
      (swapU24 c = swapU24C c ↔ ∀ i < 8, c.getLsbD (24 + i) = true → c.getLsbD (8 + i) = true) ∧
      swapU32 c = swapU32C c ∧ swapU64 d = swapU64C d) ∧
    swapU16 (getU16MsbFirst p) = getU16LsbFirst p ∧ swapU24 (getU24MsbFirst p) = getU24LsbFirst p ∧
      swapU32 (getU32MsbFirst p) = getU32LsbFirst p ∧ swapU64 (getU64MsbFirst p) = getU64LsbFirst p := by
  refine ⟨⟨?_, ?_, ?_, fun h => ?_, fun h => ?_⟩, ⟨swapU16_moves.eq swapU16C_moves b, swapU24_iff c,
    swapU32_moves.eq swapU32C_moves c, swapU64_moves.eq swapU64C_moves d⟩, ?_, swapU24_getU24MsbFirst p, ?_, ?_⟩
  · exact Moves.reverses (k := 3) bitReverseU8_moves bitReverseU8_moves a
  · exact Moves.reverses (k := 4) bitReverseU16_moves bitReverseU16C_moves b
  · exact Moves.reverses (k := 5) bitReverseU32_moves bitReverseU32C_moves c
  · rw [← bitReverseU64C_iff, h.same]
    exact Moves.reverse (k := 6) bitReverseU64_moves d
  · exact reverses_of (Moves.reverse (k := 6) bitReverseU64_moves) ((bitReverseU64C_iff d).mpr h)
      (((bitReverseU64C_iff _).mpr h.reverse).trans BitVec.reverse_reverse_eq)
  · exact swapU16_moves.joined p _ 0 (by decide)
  · exact swapU32_moves.joined p _ 0 (by decide)
  · exact swapU64_moves.joined p _ 0 (by decide)

/-- 1 reversed, and 0x01000000 swapped, by the two forms. -/
theorem reversal_slips : ¬((∀ v, bitReverseU64C v = bitReverseU64 v) ∧ ∀ v, swapU24 v = swapU24C v) ∧
    bitReverseU64C 1 ≠ bitReverseU64 1 ∧ swapU24 0x01000000 ≠ swapU24C 0x01000000 := by
  have h64 : bitReverseU64C 1 ≠ bitReverseU64 1 := by decide
  exact ⟨fun h => h64 (h.1 1), h64, by decide⟩

end Bittool
end Vsf
