/-
# One's-complement sums

Words below a base `B` are added with an end-around carry. So a sum is the plain sum modulo `B - 1`,
and of 0 and `B - 1` it is 0 only if every word is. A sum below `B * B` is folded twice; a word that
complements a sum makes it `B - 1`.
-/
import Mathlib

namespace OnesComplement

open List

variable {B n m : ℕ} {ws : List ℕ}

/-- What goes over the base is added at the low end. -/
def fold (B n : ℕ) : ℕ := n % B + n / B

/-- The sum of words, with the carry after each of them. -/
def sum (B : ℕ) (ws : List ℕ) : ℕ := ws.foldl (fun s w => fold B (s + w)) 0

/-! ### Carries -/

theorem base_modEq (hB : 1 ≤ B) : B ≡ 1 [MOD B - 1] := by
  have h : B = 1 + (B - 1) := (Nat.add_sub_cancel' hB).symm
  conv_lhs => rw [h]
  exact Nat.add_modEq_right

theorem fold_modEq (hB : 1 ≤ B) (n : ℕ) : fold B n ≡ n [MOD B - 1] := by
  calc n % B + n / B ≡ n % B + B * (n / B) [MOD B - 1] := by
        refine Nat.ModEq.add_left _ ?_
        simpa using ((base_modEq hB).mul_right (n / B)).symm
    _ = n := Nat.mod_add_div n B

theorem fold_eq_zero : fold B n = 0 ↔ n = 0 := by
  constructor
  · intro h
    obtain ⟨hmod, hdiv⟩ := Nat.add_eq_zero_iff.mp h
    rw [← Nat.mod_add_div n B, hmod, hdiv, Nat.mul_zero]
  · rintro rfl
    simp [fold]

theorem fold_lt (h : n ≤ 2 * (B - 1)) (hB : 1 < B) : fold B n < B := by
  unfold fold
  rcases lt_or_ge n B with hlt | hge
  · rwa [Nat.mod_eq_of_lt hlt, Nat.div_eq_of_lt hlt, add_zero]
  · have hdiv : n / B = 1 := Nat.div_eq_of_lt_le (by omega) (by omega)
    have hmod := Nat.mod_add_div n B
    rw [hdiv, mul_one] at hmod
    rw [hdiv]
    omega

theorem fold_le (hB : 1 < B) (h : n < B * B) : fold B n ≤ 2 * (B - 1) := by
  have hmod := Nat.mod_lt n (show 0 < B by omega)
  have hdiv : n / B < B := Nat.div_lt_of_lt_mul h
  unfold fold
  omega

theorem fold_fold_lt (hB : 1 < B) (h : n < B * B) : fold B (fold B n) < B := fold_lt (fold_le hB h) hB

/-! ### Words modulo `B - 1` -/

/-- A word is known by what it is modulo `B - 1` and whether it is 0. -/
theorem eq_iff (hB : 1 < B) (hn : n < B) (hm : m < B) : n = m ↔ n ≡ m [MOD B - 1] ∧ (n = 0 ↔ m = 0) := by
  constructor
  · rintro rfl
    exact ⟨rfl, Iff.rfl⟩
  · rintro ⟨hmod, hzero⟩
    have hpred : ∀ k < B, k % (B - 1) = k ∨ k = B - 1 := fun k hk => by
      rcases lt_or_ge k (B - 1) with hlt | hge
      · exact .inl (Nat.mod_eq_of_lt hlt)
      · exact .inr (by omega)
    have hself : (B - 1) % (B - 1) = 0 := Nat.mod_self _
    unfold Nat.ModEq at hmod
    rcases hpred n hn with h1 | h1 <;> rcases hpred m hm with h2 | h2
    · rw [h1, h2] at hmod
      exact hmod
    · rw [h1, h2, hself] at hmod
      omega
    · rw [h1, h2, hself] at hmod
      omega
    · rw [h1, h2]

/-- The last word, and no other one, is 0 modulo `B - 1` but not 0. -/
theorem eq_last_iff (hB : 1 < B) (hn : n < B) : n = B - 1 ↔ n ≡ 0 [MOD B - 1] ∧ n ≠ 0 := by
  rw [eq_iff hB hn (show B - 1 < B by omega)]
  have hself : (B - 1) ≡ 0 [MOD B - 1] := (Nat.mod_self _).trans (Nat.zero_mod _).symm
  constructor
  · rintro ⟨hmod, hzero⟩
    exact ⟨hmod.trans hself, fun h => by have := hzero.mp h; omega⟩
  · rintro ⟨hmod, hne⟩
    exact ⟨hmod.trans hself.symm, by omega⟩

/-! ### Sums -/

theorem foldl_modEq (hB : 1 ≤ B) : ∀ (ws : List ℕ) (s : ℕ),
    ws.foldl (fun s w => fold B (s + w)) s ≡ s + ws.sum [MOD B - 1]
  | [], _ => Nat.ModEq.refl _
  | w :: ws, s => by
    rw [foldl_cons, sum_cons, ← add_assoc]
    exact (foldl_modEq hB ws _).trans ((fold_modEq hB _).add_right _)

theorem foldl_eq_zero : ∀ (ws : List ℕ) (s : ℕ),
    ws.foldl (fun s w => fold B (s + w)) s = 0 ↔ s + ws.sum = 0
  | [], _ => by simp
  | w :: ws, s => by
    rw [foldl_cons, sum_cons, foldl_eq_zero ws]
    have := @fold_eq_zero B (s + w)
    omega

theorem foldl_lt (hB : 1 < B) : ∀ (ws : List ℕ) (s : ℕ), (∀ w ∈ ws, w < B) → s < B →
    ws.foldl (fun s w => fold B (s + w)) s < B
  | [], _, _, hs => hs
  | w :: ws, s, hw, hs => by
    have hwB := hw w mem_cons_self
    exact foldl_lt hB ws _ (fun v hv => hw v (mem_cons_of_mem _ hv)) (fold_lt (by omega) hB)

theorem sum_modEq (hB : 1 ≤ B) (ws : List ℕ) : sum B ws ≡ ws.sum [MOD B - 1] := by
  simpa [sum] using foldl_modEq hB ws 0

theorem sum_eq_zero : sum B ws = 0 ↔ ws.sum = 0 := by
  simpa [sum] using foldl_eq_zero ws 0

theorem sum_lt (hB : 1 < B) (hw : ∀ w ∈ ws, w < B) : sum B ws < B := foldl_lt hB ws 0 hw (by omega)

/-- Sums are the same if the plain sums are modulo `B - 1`, and both 0 or not. -/
theorem sum_congr (hB : 1 < B) {vs : List ℕ} (hv : ∀ w ∈ vs, w < B) (hw : ∀ w ∈ ws, w < B)
    (hmod : vs.sum ≡ ws.sum [MOD B - 1]) (hzero : vs.sum = 0 ↔ ws.sum = 0) : sum B vs = sum B ws := by
  rw [eq_iff hB (sum_lt hB hv) (sum_lt hB hw), sum_eq_zero, sum_eq_zero]
  exact ⟨((sum_modEq hB.le vs).trans hmod).trans (sum_modEq hB.le ws).symm, hzero⟩

/-- **The carries of a sum can be put off to the end.** -/
theorem fold_fold (hB : 1 < B) (hw : ∀ w ∈ ws, w < B) (hsum : ws.sum < B * B) : fold B (fold B ws.sum) = sum B ws := by
  rw [eq_iff hB (fold_fold_lt hB hsum) (sum_lt hB hw), fold_eq_zero, fold_eq_zero, sum_eq_zero]
  exact ⟨(fold_modEq hB.le _).trans ((fold_modEq hB.le _).trans (sum_modEq hB.le ws).symm), Iff.rfl⟩

/-- **A sum is the last word** exactly if the plain sum is a positive multiple of `B - 1`. -/
theorem sum_eq_last (hB : 1 < B) (hw : ∀ w ∈ ws, w < B) : sum B ws = B - 1 ↔ ws.sum ≡ 0 [MOD B - 1] ∧ ws.sum ≠ 0 := by
  have hmod := sum_modEq hB.le ws
  rw [eq_last_iff hB (sum_lt hB hw), Ne, sum_eq_zero]
  exact and_congr_left fun _ => ⟨fun h => hmod.symm.trans h, fun h => hmod.trans h⟩

/-- **A word that complements a sum.** -/
theorem sum_complement (hB : 1 < B) {vs : List ℕ} (hv : ∀ w ∈ vs, w < B) (hws : ∀ w ∈ ws, w < B)
    (hsum : vs.sum = ws.sum + (B - 1 - sum B ws)) : sum B vs = B - 1 := by
  have hlt := sum_lt hB hws
  rw [sum_eq_last hB hv, hsum]
  constructor
  · calc ws.sum + (B - 1 - sum B ws) ≡ sum B ws + (B - 1 - sum B ws) [MOD B - 1] := (sum_modEq hB.le ws).symm.add_right _
      _ = B - 1 := by omega
      _ ≡ 0 [MOD B - 1] := (Nat.mod_self _).trans (Nat.zero_mod _).symm
  · intro h0
    obtain ⟨h1, h2⟩ := Nat.add_eq_zero_iff.mp h0
    rw [sum_eq_zero.mpr h1] at h2
    omega

end OnesComplement
