/-
# Arrays of bits

The bit arrays of `bittool.c`: a bit is set or cleared by its number, and the first clear one is
searched.
-/
import Mathlib
import Vsf.Lib.ByteMem

namespace Vsf
namespace Bittool

open ByteMem List

/-- The loop of `msb`; a word is 0 after 32 turns. -/
def msbLoop : ℕ → UInt32 → ℤ → ℤ
  | 0, _, c => c
  | n + 1, a, c => if 0 < a then msbLoop n (a >>> 1) (c + 1) else c

def msb (a : UInt32) : ℤ := msbLoop 32 a (-1)

def ffz (a : UInt32) : ℤ := msb (~~~a &&& -(~~~a))

/-- `arr[i]`. -/
def word (m : Mem) (arr i : ℕ) : UInt32 := UInt32.ofNat (load32 m (arr + 4 * i))

def mskarrSet (m : Mem) (arr bit : ℕ) : Mem :=
  store32 m (arr + 4 * (bit / 32)) (word m arr (bit / 32) ||| 1 <<< UInt32.ofNat (bit % 32)).toNat

def mskarrClr (m : Mem) (arr bit : ℕ) : Mem :=
  store32 m (arr + 4 * (bit / 32)) (word m arr (bit / 32) &&& ~~~(1 <<< UInt32.ofNat (bit % 32))).toNat

/-- The loop of `mskarr_ffz`, with so many words to come. -/
def ffzLoop (m : Mem) (arr : ℕ) : ℕ → ℕ → ℤ
  | 0, _ => -1
  | n + 1, i => if 0 ≤ ffz (word m arr i) then 32 * i + ffz (word m arr i) else ffzLoop m arr n (i + 1)

def mskarrFfz (m : Mem) (arr arrlen : ℕ) : ℤ := ffzLoop m arr arrlen 0

/-- Bit `i` of the array. -/
def flag (m : Mem) (arr i : ℕ) : Bool := (word m arr (i / 32)).toNat.testBit (i % 32)

/-! ### The first bit that is clear -/

theorem msbLoop_two_pow : ∀ (k n : ℕ) {a : UInt32} (c : ℤ), k < n → a.toNat = 2 ^ k → msbLoop n a c = c + k + 1
  | 0, n + 1, a, c, _, ha => by
    have hone : a = 1 := UInt32.toNat_inj.mp ha
    subst hone
    have hnext : msbLoop n ((1 : UInt32) >>> 1) (c + 1) = c + 1 := by
      cases n <;> rfl
    rw [msbLoop, if_pos (by decide), hnext, Nat.cast_zero, add_zero]
  | k + 1, n + 1, a, c, hk, ha => by
    have hpos : 0 < a := UInt32.lt_iff_toNat_lt.mpr (by rw [ha]; exact Nat.two_pow_pos _)
    have hhalf : (a >>> 1).toNat = 2 ^ k := by
      rw [UInt32.toNat_shiftRight, ha]
      show 2 ^ (k + 1) >>> 1 = 2 ^ k
      rw [Nat.shiftRight_eq_div_pow, Nat.pow_succ, Nat.pow_one, Nat.mul_div_cancel _ (by omega)]
    rw [msbLoop, if_pos hpos, msbLoop_two_pow k n (c + 1) (by omega) hhalf]
    push_cast
    omega

variable {a : UInt32} {k n : ℕ}

/-- All that is left of a word and the next one: the highest bit that gets set. -/
theorem not_and_neg (hk : k < 32) (h0 : a.toNat.testBit k = false)
    (hlow : ∀ j < k, a.toNat.testBit j = true) : (~~~a &&& -(~~~a)).toNat = 2 ^ k := by
  -- the word is ones up to `k`, a zero there, and whatever it is above
  have hsplit : a.toNat = 2 ^ (k + 1) * (a.toNat / 2 ^ (k + 1)) + (2 ^ k - 1) := by
    apply Nat.eq_of_testBit_eq
    intro j
    have hlt : 2 ^ k - 1 < 2 ^ (k + 1) := by
      rw [pow_succ]
      have := Nat.two_pow_pos k
      omega
    rw [Nat.testBit_two_pow_mul_add _ hlt]
    split_ifs with hj
    · rw [Nat.testBit_two_pow_sub_one]
      rcases lt_or_ge j k with hjk | hjk
      · rw [hlow j hjk, decide_eq_true hjk]
      · obtain rfl : j = k := by omega
        rw [h0, decide_eq_false (Nat.lt_irrefl _)]
    · rw [Nat.testBit_div_two_pow, Nat.sub_add_cancel (by omega)]
  have hneg : -(~~~a) = a + 1 := by
    apply UInt32.toBitVec_inj.mp
    rw [UInt32.toBitVec_neg, UInt32.toBitVec_not, BitVec.neg_eq_not_add, BitVec.not_not, UInt32.toBitVec_add]
    rfl
  have hpos := Nat.two_pow_pos k
  have hsucc : (a + 1).toNat = 2 ^ (k + 1) * (a.toNat / 2 ^ (k + 1)) + 2 ^ k := by
    have hlt := a.toNat_lt
    have hne : a.toNat ≠ 2 ^ 32 - 1 := by
      intro hfull
      rw [hfull, Nat.testBit_two_pow_sub_one, decide_eq_true hk] at h0
      cases h0
    rw [UInt32.toNat_add, show (1 : UInt32).toNat = 1 from rfl, Nat.mod_eq_of_lt (by omega)]
    omega
  apply Nat.eq_of_testBit_eq
  intro j
  have hlt : 2 ^ k < 2 ^ (k + 1) := Nat.pow_lt_pow_right (by omega) (Nat.lt_succ_self k)
  rw [hneg, UInt32.toNat_and, Nat.testBit_and, hsucc, Nat.testBit_two_pow_mul_add _ hlt, Nat.testBit_two_pow]
  have hnot : ∀ j < 32, (~~~a).toNat.testBit j = !a.toNat.testBit j := by
    intro j hj
    rw [← UInt32.toNat_toBitVec, UInt32.toBitVec_not, BitVec.testBit_toNat, BitVec.getLsbD_not, decide_eq_true hj,
      Bool.true_and, ← BitVec.testBit_toNat, UInt32.toNat_toBitVec]
  split_ifs with hj
  · rw [hnot j (by omega)]
    by_cases hjk : j = k
    · subst hjk
      rw [h0]
      simp
    · rw [decide_eq_false (Ne.symm hjk), Bool.and_false]
  · rw [decide_eq_false (by omega)]
    by_cases hj32 : j < 32
    · rw [hnot j hj32, Nat.testBit_div_two_pow, Nat.sub_add_cancel (by omega), Bool.not_and_self]
    · have hbig : (~~~a).toNat.testBit j = false :=
        Nat.testBit_lt_two_pow ((~~~a).toNat_lt.trans_le (Nat.pow_le_pow_right (by omega) (not_lt.mp hj32)))
      rw [hbig, Bool.false_and]

theorem ffz_eq (hk : k < 32) (h0 : a.toNat.testBit k = false)
    (hlow : ∀ j < k, a.toNat.testBit j = true) : ffz a = k := by
  rw [ffz, msb, msbLoop_two_pow k 32 (-1) hk (not_and_neg hk h0 hlow)]
  omega

theorem ffz_full (h : ∀ k < 32, a.toNat.testBit k = true) : ffz a = -1 := by
  have hfull : a = 0xFFFFFFFF := by
    apply UInt32.toNat_inj.mp
    apply Nat.eq_of_testBit_eq
    intro k
    have hones : (0xFFFFFFFF : UInt32).toNat = 2 ^ 32 - 1 := rfl
    rw [hones, Nat.testBit_two_pow_sub_one]
    by_cases hk : k < 32
    · rw [h k hk, decide_eq_true hk]
    · rw [decide_eq_false hk]
      exact Nat.testBit_lt_two_pow (a.toNat_lt.trans_le (Nat.pow_le_pow_right (by omega) (not_lt.mp hk)))
  subst hfull
  decide

theorem ffz_cases (a : UInt32) : (ffz a = -1 ∧ ∀ k < 32, a.toNat.testBit k = true) ∨
      ∃ k : ℕ, k < 32 ∧ ffz a = k ∧ a.toNat.testBit k = false ∧ ∀ j < k, a.toNat.testBit j = true := by
  by_cases h : ∀ k < 32, a.toNat.testBit k = true
  · exact .inl ⟨ffz_full h, h⟩
  · push Not at h
    have hex : ∃ k, k < 32 ∧ a.toNat.testBit k = false := by
      obtain ⟨k, hk, hb⟩ := h
      exact ⟨k, hk, by simpa using hb⟩
    obtain ⟨hk, h0⟩ := Nat.find_spec hex
    have hlow : ∀ j < Nat.find hex, a.toNat.testBit j = true := by
      intro j hj
      have := Nat.find_min hex hj
      push Not at this
      simpa using this (by omega)
    exact .inr ⟨Nat.find hex, hk, ffz_eq hk h0 hlow, h0, hlow⟩

theorem ffzLoop_cases (m : Mem) (arr : ℕ) : ∀ (n i : ℕ), (∀ j < 32 * i, flag m arr j = true) →
    (ffzLoop m arr n i = -1 ∧ ∀ j < 32 * (i + n), flag m arr j = true) ∨
      ∃ k : ℕ, k < 32 * (i + n) ∧ ffzLoop m arr n i = k ∧ flag m arr k = false ∧ ∀ j < k, flag m arr j = true
  | 0, i, h => .inl ⟨rfl, h⟩
  | n + 1, i, h => by
    have hword : ∀ k < 32, flag m arr (32 * i + k) = (word m arr i).toNat.testBit k := by
      intro k hk
      rw [flag, Nat.mul_add_mod, Nat.mod_eq_of_lt hk, Nat.mul_add_div (by omega), Nat.div_eq_of_lt hk, add_zero]
    unfold ffzLoop
    rcases ffz_cases (word m arr i) with ⟨hf, hall⟩ | ⟨k, hk, hf, h0, hlow⟩
    · have hnext : ∀ j < 32 * (i + 1), flag m arr j = true := by
        intro j hj
        rcases lt_or_ge j (32 * i) with hji | hji
        · exact h j hji
        · have := hword (j - 32 * i) (by omega)
          rwa [Nat.add_sub_cancel' hji, hall _ (by omega)] at this
      rw [hf, if_neg (by omega), show i + (n + 1) = i + 1 + n by omega]
      exact ffzLoop_cases m arr n (i + 1) hnext
    · refine .inr ⟨32 * i + k, by omega, ?_, ?_, ?_⟩
      · rw [hf, if_pos (Int.natCast_nonneg k)]
        push_cast
        rfl
      · rw [hword k hk, h0]
      · intro j hj
        rcases lt_or_ge j (32 * i) with hji | hji
        · exact h j hji
        · have := hword (j - 32 * i) (by omega)
          rwa [Nat.add_sub_cancel' hji, hlow _ (by omega)] at this

/-- `mskarr_ffz` finds the first bit that is clear, or returns -1. -/
theorem mskarrFfz_cases (m : Mem) (arr arrlen : ℕ) :
    (mskarrFfz m arr arrlen = -1 ∧ ∀ j < 32 * arrlen, flag m arr j = true) ∨
      ∃ k : ℕ, k < 32 * arrlen ∧ mskarrFfz m arr arrlen = k ∧ flag m arr k = false ∧ ∀ j < k, flag m arr j = true := by
  have h := ffzLoop_cases m arr arrlen 0 fun _ hj => absurd hj (Nat.not_lt_zero _)
  rwa [zero_add] at h

/-! ### Setting and clearing -/

variable {m m' : Mem} {arr bit : ℕ}

theorem load32_word (m : Mem) (arr i : ℕ) : (word m arr i).toNat = load32 m (arr + 4 * i) := by
  rw [word, UInt32.toNat_ofNat', Nat.mod_eq_of_lt (load32_lt _ _)]

theorem word_store (m : Mem) (arr i : ℕ) (v : UInt32) (j : ℕ) :
    word (store32 m (arr + 4 * i) v.toNat) arr j = if j = i then v else word m arr j := by
  apply UInt32.toNat_inj.mp
  rw [load32_word]
  split_ifs with h
  · rw [h, load32_store32 _ _ v.toNat_lt]
  · rw [load32_word]
    exact (same_store32 m _ _).load32 fun _ _ _ => by omega

theorem toNat_one_shiftLeft (hk : k < 32) : (1 <<< UInt32.ofNat k : UInt32).toNat = 2 ^ k := by
  have hmod : (UInt32.ofNat k).toNat % 32 = k := by
    rw [UInt32.toNat_ofNat']
    omega
  rw [UInt32.toNat_shiftLeft, hmod, show (1 : UInt32).toNat = 1 from rfl, Nat.one_shiftLeft,
    Nat.mod_eq_of_lt (Nat.pow_lt_pow_right (by omega) hk)]

theorem flag_mskarrSet (m : Mem) (arr bit i : ℕ) :
    flag (mskarrSet m arr bit) arr i = if i = bit then true else flag m arr i := by
  rw [flag, mskarrSet, word_store]
  have hk : bit % 32 < 32 := Nat.mod_lt _ (by omega)
  by_cases hw : i / 32 = bit / 32
  · rw [if_pos hw, UInt32.toNat_or, Nat.testBit_or, toNat_one_shiftLeft hk, Nat.testBit_two_pow, flag, hw]
    by_cases hb : i = bit
    · rw [if_pos hb, hb, decide_eq_true rfl, Bool.or_true]
    · rw [if_neg hb, decide_eq_false (by omega), Bool.or_false]
  · rw [if_neg hw, if_neg fun h : i = bit => hw (h ▸ rfl), flag]

theorem flag_mskarrClr (m : Mem) (arr bit i : ℕ) :
    flag (mskarrClr m arr bit) arr i = if i = bit then false else flag m arr i := by
  rw [flag, mskarrClr, word_store]
  have hk : bit % 32 < 32 := Nat.mod_lt _ (by omega)
  by_cases hw : i / 32 = bit / 32
  · have hnot : (~~~(1 <<< UInt32.ofNat (bit % 32)) : UInt32).toNat.testBit (i % 32) = !decide (bit % 32 = i % 32) := by
      rw [← UInt32.toNat_toBitVec, UInt32.toBitVec_not, BitVec.testBit_toNat, BitVec.getLsbD_not,
        decide_eq_true (Nat.mod_lt _ (by omega)), Bool.true_and, ← BitVec.testBit_toNat, UInt32.toNat_toBitVec,
        toNat_one_shiftLeft hk, Nat.testBit_two_pow]
    rw [if_pos hw, UInt32.toNat_and, Nat.testBit_and, hnot, flag, hw]
    by_cases hb : i = bit
    · rw [if_pos hb, hb, decide_eq_true rfl, Bool.not_true, Bool.and_false]
    · rw [if_neg hb, decide_eq_false (by omega), Bool.not_false, Bool.and_true]
  · rw [if_neg hw, if_neg fun h : i = bit => hw (h ▸ rfl), flag]

theorem flag_congr (h : ∀ a, arr ≤ a → a < arr + 4 * n → m' a = m a) {i : ℕ} (hi : i < 32 * n) :
    flag m' arr i = flag m arr i := by
  have hword : word m' arr (i / 32) = word m arr (i / 32) := by
    apply UInt32.toNat_inj.mp
    rw [load32_word, load32_word, load32, load32, h _ (by omega) (by omega), h _ (by omega) (by omega),
      h _ (by omega) (by omega), h _ (by omega) (by omega)]
  rw [flag, flag, hword]

theorem flag_zero (h : ∀ a, arr ≤ a → a < arr + 4 * n → m a = 0) {i : ℕ} (hi : i < 32 * n) :
    flag m arr i = false := by
  have hz : flag m arr i = flag (fun _ => 0) arr i := flag_congr h hi
  rw [hz, flag, show (word (fun _ => 0) arr (i / 32)) = 0 from rfl, UInt32.toNat_zero, Nat.zero_testBit]

theorem same_mskarrSet : Same (fun a => arr + 4 * (bit / 32) ≤ a ∧ a < arr + 4 * (bit / 32) + 4) m (mskarrSet m arr bit) :=
  same_store32 m _ _

theorem same_mskarrClr : Same (fun a => arr + 4 * (bit / 32) ≤ a ∧ a < arr + 4 * (bit / 32) + 4) m (mskarrClr m arr bit) :=
  same_store32 m _ _

/-! ### All the bits that are clear -/

/-- `mskarr_ffz` and `mskarr_set` in turn: the bits in the order they are found. -/
def takeAll (arr arrlen : ℕ) : ℕ → Mem → List ℕ
  | 0, _ => []
  | n + 1, m =>
    if mskarrFfz m arr arrlen < 0 then []
    else (mskarrFfz m arr arrlen).toNat :: takeAll arr arrlen n (mskarrSet m arr (mskarrFfz m arr arrlen).toNat)

theorem filter_range {p p' : ℕ → Bool} (hk : k < n) (hp : p k = true) (hlow : ∀ j < k, p j = false)
    (hp' : ∀ j, p' j = (p j && decide (j ≠ k))) : (List.range n).filter p = k :: (List.range n).filter p' := by
  obtain ⟨r, rfl⟩ := Nat.exists_eq_add_of_lt hk
  have hnone : ∀ q : ℕ → Bool, (∀ j < k, q j = false) → (List.range k).filter q = [] := fun q hq =>
    filter_eq_nil_iff.mpr fun j hj => by simp [hq j (List.mem_range.mp hj)]
  have hrest : (((List.range r).map Nat.succ).map (k + ·)).filter p = (((List.range r).map Nat.succ).map (k + ·)).filter p' := by
    apply filter_congr
    intro j hj
    obtain ⟨i, hi, rfl⟩ := mem_map.mp hj
    obtain ⟨t, -, rfl⟩ := mem_map.mp hi
    simp [hp']
  rw [add_assoc, range_add, range_succ_eq_map, filter_append, filter_append, hnone p hlow,
    hnone p' fun j hj => by rw [hp', hlow j hj, Bool.false_and], map_cons, filter_cons, filter_cons, hp', add_zero, hp, hrest]
  simp

theorem takeAll_eq (arr arrlen : ℕ) : ∀ (n : ℕ) (m : Mem), ((List.range (32 * arrlen)).filter fun i => !flag m arr i).length ≤ n →
    takeAll arr arrlen n m = (List.range (32 * arrlen)).filter fun i => !flag m arr i
  | 0, m, h => (eq_nil_of_length_eq_zero (Nat.le_zero.mp h)).symm
  | n + 1, m, h => by
    rw [takeAll]
    rcases mskarrFfz_cases m arr arrlen with ⟨hf, hall⟩ | ⟨k, hk, hf, h0, hlow⟩
    · rw [hf, if_pos (by decide)]
      refine (filter_eq_nil_iff.mpr fun i hi => ?_).symm
      simp [hall i (List.mem_range.mp hi)]
    · have hfirst : (List.range (32 * arrlen)).filter (fun i => !flag m arr i) =
          k :: (List.range (32 * arrlen)).filter fun i => !flag (mskarrSet m arr k) arr i := by
        refine filter_range hk (by rw [h0]; rfl) (fun j hj => by rw [hlow j hj]; rfl) fun j => ?_
        rw [flag_mskarrSet]
        by_cases hj : j = k
        · simp [hj]
        · simp [hj]
      rw [hfirst, length_cons] at h
      rw [hf, if_neg (by omega), Int.toNat_natCast, takeAll_eq arr arrlen n _ (Nat.le_of_succ_le_succ h), hfirst]

/-- **The bit arrays**: the bit found, what a set or cleared bit changes, and the clear bits in order. -/
theorem mskarr_right (m : Mem) (arr arrlen : ℕ) :
    ((mskarrFfz m arr arrlen = -1 ↔ ∀ j < 32 * arrlen, flag m arr j = true) ∧
      ∀ k : ℕ, mskarrFfz m arr arrlen = k ↔ k < 32 * arrlen ∧ flag m arr k = false ∧ ∀ j < k, flag m arr j = true) ∧
    (∀ bit i, flag (mskarrSet m arr bit) arr i = (if i = bit then true else flag m arr i) ∧
      flag (mskarrClr m arr bit) arr i = if i = bit then false else flag m arr i) ∧
    takeAll arr arrlen (32 * arrlen) m = (List.range (32 * arrlen)).filter fun i => !flag m arr i := by
  refine ⟨?_, fun bit i => ⟨flag_mskarrSet m arr bit i, flag_mskarrClr m arr bit i⟩, ?_⟩
  · rcases mskarrFfz_cases m arr arrlen with ⟨hf, hall⟩ | ⟨k, hk, hf, h0, hlow⟩
    · refine ⟨iff_of_true hf hall, fun k => iff_of_false (by omega) ?_⟩
      rintro ⟨hk, h0, -⟩
      rw [hall k hk] at h0
      cases h0
    · refine ⟨iff_of_false (by omega) fun hall => ?_, fun k' => ⟨fun h => ?_, ?_⟩⟩
      · rw [hall k hk] at h0
        cases h0
      · obtain rfl : k = k' := by omega
        exact ⟨hk, h0, hlow⟩
      · rintro ⟨-, h0', hlow'⟩
        rcases lt_trichotomy k k' with hlt | rfl | hlt
        · rw [hlow' k hlt] at h0
          cases h0
        · exact hf
        · rw [hlow k' hlt] at h0'
          cases h0'
  · apply takeAll_eq
    calc ((List.range (32 * arrlen)).filter fun i => !flag m arr i).length
        ≤ (List.range (32 * arrlen)).length := length_filter_le ..
      _ = 32 * arrlen := length_range

/-! ### Sizes -/

theorem toNat_and_not_three (v : UInt32) : (v &&& ~~~3).toNat = v.toNat / 4 * 4 := by
  have hv := v.toNat_lt
  have hmask : (~~~3 : UInt32).toNat = 2 ^ 32 - 4 := rfl
  rw [UInt32.toNat_and, hmask]
  apply Nat.eq_of_testBit_eq
  intro j
  have hones : (2 ^ 32 - 4 : ℕ) = 2 ^ 2 * (2 ^ 30 - 1) := rfl
  have hmul : v.toNat / 4 * 4 = 2 ^ 2 * (v.toNat / 2 ^ 2) := mul_comm ..
  rw [Nat.testBit_and, hones, hmul, Nat.testBit_two_pow_mul, Nat.testBit_two_pow_mul, Nat.testBit_two_pow_sub_one,
    Nat.testBit_div_two_pow]
  by_cases hj : 2 ≤ j
  · rw [decide_eq_true hj, Bool.true_and, Bool.true_and, Nat.sub_add_cancel hj]
    by_cases hlt : j - 2 < 30
    · rw [decide_eq_true hlt, Bool.and_true]
    · have hbig : v.toNat.testBit j = false :=
        Nat.testBit_lt_two_pow (lt_of_lt_of_le hv (Nat.pow_le_pow_right (by omega) (by omega)))
      rw [hbig, Bool.false_and]
  · rw [decide_eq_false hj, Bool.false_and, Bool.and_false, Bool.false_and]

end Bittool
end Vsf
