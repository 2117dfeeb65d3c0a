/-
# Text of a C program

Strings as bytes: `ascii`, `decimal` for `%u` and `printD` for `%d`. A number can be read back from
its digits (`number_decimal`), also in front of the end of a line (`printD_line`).
-/
import Mathlib

namespace Text

open List

/-- The bytes of a string of ASCII characters. -/
def ascii (s : String) : List UInt8 := s.toList.map fun c => c.toNat.toUInt8

/-- A number in decimal, as `%u` prints it. -/
def decimal (n : ℕ) : List UInt8 := (Nat.toDigits 10 n).map fun c => c.toNat.toUInt8

/-- The 32 bits of `v` as `%d` prints them. -/
def printD (v : UInt32) : List UInt8 :=
  if v.toNat < 2 ^ 31 then decimal v.toNat else 45 :: decimal (2 ^ 32 - v.toNat)

/-- What digits say. -/
def number (bs : List UInt8) : ℕ := bs.foldl (fun acc b => 10 * acc + (b.toNat - 48)) 0

/-! ### Digits -/

theorem digit_toNat {n : ℕ} {c : Char} (hc : c ∈ Nat.toDigits 10 n) :
    c.toNat.toUInt8.toNat = c.toNat ∧ 48 ≤ c.toNat ∧ c.toNat ≤ 57 := by
  have hdig := Nat.isDigit_of_mem_toDigits (by decide) (by decide) hc
  simp only [Char.isDigit, Bool.and_eq_true, decide_eq_true_eq, ge_iff_le] at hdig
  have hlo : 48 ≤ c.toNat := UInt32.le_iff_toNat_le.mp hdig.1
  have hhi : c.toNat ≤ 57 := UInt32.le_iff_toNat_le.mp hdig.2
  refine ⟨?_, hlo, hhi⟩
  rw [Nat.toUInt8, UInt8.toNat_ofNat']
  exact Nat.mod_eq_of_lt (by omega)

theorem decimal_digit {n : ℕ} {b : UInt8} (hb : b ∈ decimal n) : 48 ≤ b.toNat ∧ b.toNat ≤ 57 := by
  obtain ⟨c, hc, rfl⟩ := mem_map.mp hb
  obtain ⟨hnat, hdig⟩ := digit_toNat hc
  rw [hnat]
  exact hdig

theorem decimal_ne_nil (n : ℕ) : decimal n ≠ [] := by
  unfold decimal
  rw [ne_eq, map_eq_nil_iff]
  exact Nat.toDigits_ne_nil

theorem decimal_length_le {n k : ℕ} (hk : 0 < k) : (decimal n).length ≤ k ↔ n < 10 ^ k := by
  unfold decimal
  rw [length_map]
  exact Nat.length_toDigits_le_iff (by decide) hk

theorem number_decimal (n : ℕ) : number (decimal n) = n := by
  have hfold : ∀ (cs : List Char) (acc : ℕ), (∀ c ∈ cs, c.toNat.toUInt8.toNat = c.toNat) →
      (cs.map fun c => c.toNat.toUInt8).foldl (fun acc b => 10 * acc + (b.toNat - 48)) acc = Nat.ofDigitChars 10 cs acc := by
    intro cs
    induction cs with
    | nil => exact fun _ _ => rfl
    | cons c cs ih =>
      intro acc h
      rw [map_cons, foldl_cons, h c mem_cons_self, ih _ fun x hx => h x (mem_cons_of_mem _ hx)]
      rfl
  calc number (decimal n) = Nat.ofDigitChars 10 (Nat.toDigits 10 n) 0 := hfold _ 0 fun c hc => (digit_toNat hc).1
    _ = n := Nat.ofDigitChars_ten_toDigits

theorem decimal_inj {m n : ℕ} (h : decimal m = decimal n) : m = n := by
  rw [← number_decimal m, h, number_decimal]

/-! ### Lines -/

/-- Two texts without `b`, each with a `b` behind it. -/
theorem append_cons_inj {b : UInt8} : ∀ {xs ys us vs : List UInt8}, b ∉ xs → b ∉ ys →
    xs ++ b :: us = ys ++ b :: vs → xs = ys ∧ us = vs
  | [], [], _, _, _, _, h => ⟨rfl, tail_eq_of_cons_eq h⟩
  | [], y :: ys, _, _, _, hy, h => absurd (head_eq_of_cons_eq h) fun he => hy (he ▸ mem_cons_self)
  | x :: xs, [], _, _, hx, _, h => absurd (head_eq_of_cons_eq h) fun he => hx (he ▸ mem_cons_self)
  | x :: xs, y :: ys, us, vs, hx, hy, h => by
    obtain ⟨hh, ht⟩ := cons_eq_cons.mp h
    obtain ⟨h1, h2⟩ := append_cons_inj (fun hm => hx (mem_cons_of_mem _ hm)) (fun hm => hy (mem_cons_of_mem _ hm)) ht
    exact ⟨hh ▸ h1 ▸ rfl, h2⟩

theorem decimal_cr (n : ℕ) : (13 : UInt8) ∉ decimal n := fun hm =>
  absurd (decimal_digit hm).1 (by decide)

theorem printD_cr (v : UInt32) : (13 : UInt8) ∉ printD v := by
  unfold printD
  split_ifs
  · exact decimal_cr _
  · rw [mem_cons]
    rintro (h | h)
    · revert h
      decide
    · exact decimal_cr _ h

/-- `%d` prints the lower half of 64 bits, so a line has the size only below `2 ^ 31`. -/
theorem printD_line {n : ℕ} {us vs : List UInt8} :
    (printD (UInt32.ofNat n) ++ 13 :: us = decimal n ++ 13 :: vs) ↔ n < 2 ^ 31 ∧ us = vs := by
  constructor
  · intro h
    obtain ⟨h1, h2⟩ := append_cons_inj (printD_cr _) (decimal_cr _) h
    refine ⟨?_, h2⟩
    unfold printD at h1
    split_ifs at h1 with hlt
    · rw [← decimal_inj h1]
      exact hlt
    · -- no digit is a minus sign
      have hm : (45 : UInt8) ∈ decimal n := h1 ▸ mem_cons_self
      exact absurd (decimal_digit hm).1 (by decide)
  · rintro ⟨hlt, rfl⟩
    have hnat : (UInt32.ofNat n).toNat = n := UInt32.toNat_ofNat_of_lt' (hlt.trans (by decide))
    unfold printD
    rw [hnat, if_pos hlt]

theorem printD_length (v : UInt32) : (printD v).length ≤ 11 := by
  unfold printD
  split_ifs
  · exact ((decimal_length_le (by decide)).mpr (by omega : v.toNat < 10 ^ 10)).trans (by decide)
  · rw [length_cons]
    exact Nat.succ_le_succ ((decimal_length_le (by decide)).mpr (by omega))

end Text
